import GrammarWalk.Count
import GrammarWalk.Panel.Theme
import GrammarWalk.Screen.Widget

/-!
The bar with the position of a session on the left, and the keys on the right.
-/

namespace GrammarWalk

open Screen

/-- Where a session has stopped. -/
inductive Progress
  | stopped | atBreakpoint | finished
deriving DecidableEq, Repr, Inhabited

structure StatusBar where
  message : String
  ruleName : String
  tokenIndex : Nat
  tokenCount : Nat
  errorCount : Nat
  progress : Progress
deriving DecidableEq, Repr, Inhabited

namespace StatusBar

def bar : Style := { background := some Theme.currentLine }

def onBar (text : String) (color : Color) : Run :=
  { text, style := { bar with foreground := some color } }

def badge (text : String) (background : Color) : Run :=
  { text, style := { foreground := some .black, background := some background, bold := true } }

def position (b : StatusBar) : List Run :=
  let token := min (Count.add b.tokenIndex 1) b.tokenCount
  let failed := b.errorCount ≠ 0
  let errors := if failed then [onBar s!" {b.errorCount} error(s) " Theme.red] else []
  [badge s!" {b.ruleName} · token {token}/{b.tokenCount} " (if failed then Theme.red
    else Theme.blue),
    onBar " | " Theme.grey, onBar s!" {b.message} " Theme.text] ++ errors

/-- The keys, and what they do. -/
def keys : List (String × String) :=
  [("c", "continue"), ("i/→", "in"), ("o", "over"), ("u", "out"), ("b", "breakpoint"),
   ("r", "restart"), ("q", "quit")]

def progressBadge : Progress → Run
  | .stopped => badge " PAUSED " Theme.orange
  | .atBreakpoint => badge " BREAK " Theme.red
  | .finished => badge " END " Theme.green

def hints (b : StatusBar) : List Run :=
  let key : Style := { foreground := some .black, background := some Theme.grey }
  (keys.flatMap fun (name, action) =>
    [{ text := s!" {name} ", style := key }, onBar s!" {action} " Theme.text,
      onBar "│" Theme.grey]) ++ [progressBadge b.progress]

def draw (b : StatusBar) (a : Area) (c : Canvas) : Canvas :=
  let half := Area.share 50 a.width
  let left := a.takeColumns half
  let right := a.dropColumns half
  ((c.fill left bar).text left [b.position] |>.fill right bar).textRight right b.hints

end StatusBar

end GrammarWalk
