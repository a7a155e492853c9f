import GrammarWalk.Screen.Canvas

/-!
Canvases as text for a terminal, with control sequences for colours.
-/

namespace GrammarWalk.Screen

def controlStart : String := "\x1b["

/-- The codes that set a colour; `base` is 30 for text and 40 for what is behind it. -/
def Color.codes (base : Nat) : Color → String
  | reset => s!"{base + 9}"
  | black => s!"{base}"
  | rgb red green blue => s!"{base + 8};2;{red};{green};{blue}"

/-- Text between the sequence for its look and the one that ends all looks. -/
def Look.show (l : Look) (text : String) : String :=
  let weight := if l.bold then "1;" else ""
  s!"{controlStart}{weight}{l.foreground.codes 30};{l.background.codes 40}m{text}{controlStart}0m"

def Canvas.show (c : Canvas) : String :=
  let rows := c.texts.map fun row => String.join (row.map fun (text, look) => look.show text)
  s!"{controlStart}2J{controlStart}H" ++ "\r\n".intercalate rows

end GrammarWalk.Screen
