import GrammarWalk.Panel.Highlight
import GrammarWalk.Screen.Widget
import GrammarWalk.Text.Lines
import GrammarWalk.Text.Padding

/-!
The panel with the text of the grammar, the breakpoints, the current rule and the cursor.
-/

namespace GrammarWalk

open Screen

structure SourceScroll where
  /-- The number of lines above the first one shown. -/
  offset : Nat := 0
  /-- The row at which the followed line is kept, once the panel was drawn. -/
  target : Option Nat := none
deriving DecidableEq, Repr, Inhabited

structure SourcePanel where
  /-- The name of the file, empty if it is not known. -/
  name : String
  text : String
  /-- The line of the current rule; zero if there is none. -/
  current : Nat
  /-- The line of the cursor. -/
  cursor : Nat
  breakpoints : List Nat
  focused : Bool
deriving DecidableEq, Repr, Inhabited

namespace SourcePanel

def title (p : SourcePanel) : String := if p.name.isEmpty then " Grammar " else s!" {p.name} "

/-- The line that is kept in view: the cursor's if the panel has the focus, else the current one. -/
def followed (p : SourcePanel) : Nat := if p.focused then p.cursor else p.current

/-- The scroll position at which the followed line stands in its row, if it is a line of the
text. -/
def scrolled (p : SourcePanel) (total shown : Nat) (s : SourceScroll) : SourceScroll :=
  let target := min (s.target.getD (shown / 2)) (shown - 1)
  let offset :=
    if p.followed = 0 ∨ total < p.followed then s.offset
    else min (p.followed - 1 - target) (total - shown)
  { offset, target := some target }

def marker (p : SourcePanel) (line : Nat) : Run :=
  if p.breakpoints.contains line then { text := "●", style := .colored Theme.red }
  else if p.focused ∧ line = p.cursor then { text := "›", style := .colored Theme.yellow }
  else { text := " " }

def row (p : SourcePanel) (text : List Char) (line : Nat) : List Run :=
  let number : Style :=
    if line = p.current then { foreground := some Theme.orange, bold := true }
    else .colored Theme.grey
  let content := Highlight.runs text
  let content :=
    if line = p.current then content.map (·.on Theme.currentLine)
    else if p.focused ∧ line = p.cursor then content.map (·.on Theme.cursorLine)
    else content
  p.marker line :: { text := Text.padLeft 4 (toString line) ++ " ", style := number } :: content

def draw (p : SourcePanel) (a : Area) (s : SourceScroll) (c : Canvas) : SourceScroll × Canvas :=
  let lines := Text.lines p.text
  let s := p.scrolled lines.length a.shownRows s
  let rows := ((lines.zipIdx 1).drop s.offset).take a.shownRows |>.map fun (text, line) =>
    p.row text line
  let border := Theme.border p.focused
  let c :=
    if rows.isEmpty then
      ((c.fill a (.colored Theme.grey)).box a p.title border).text a.inside
        [[{ text := "(no grammar source)" }]]
    else (c.box a p.title border).text a.inside rows
  (s, c)

end SourcePanel

end GrammarWalk
