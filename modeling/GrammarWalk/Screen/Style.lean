/-!
Colours and styles. A style names only what it changes; the look of a cell is complete.
-/

namespace GrammarWalk.Screen

inductive Color
  /-- The colour of the terminal. -/
  | reset
  | black
  | rgb (red green blue : Nat)
deriving DecidableEq, Repr, Inhabited

def hexPair (n : Nat) : String := String.ofList [Nat.digitChar (n / 16), Nat.digitChar (n % 16)]

def Color.text : Color → String
  | reset => "reset"
  | black => "black"
  | rgb red green blue => "#" ++ hexPair red ++ hexPair green ++ hexPair blue

structure Style where
  foreground : Option Color := none
  background : Option Color := none
  bold : Bool := false
deriving DecidableEq, Repr, Inhabited

def Style.colored (c : Color) : Style := { foreground := some c }

structure Look where
  foreground : Color := .reset
  background : Color := .reset
  bold : Bool := false
deriving DecidableEq, Repr, Inhabited

def Look.apply (l : Look) (s : Style) : Look where
  foreground := s.foreground.getD l.foreground
  background := s.background.getD l.background
  bold := l.bold || s.bold

/-- A piece of text in one style. -/
structure Run where
  text : String
  style : Style := {}
deriving DecidableEq, Repr, Inhabited

def Run.on (r : Run) (background : Color) : Run :=
  { r with style := { r.style with background := some background } }

end GrammarWalk.Screen
