import GrammarWalk.Grammar.Vocabulary
import GrammarWalk.Panel.Theme
import GrammarWalk.Screen.Widget
import GrammarWalk.Text.Padding
import GrammarWalk.Text.Quoted
import GrammarWalk.Token

/-!
The panel with the tokens and the position of the parse.
-/

namespace GrammarWalk

open Screen

structure TokensPanel where
  /-- The tokens, once there are any. -/
  tokens : Option Tokens
  vocabulary : Vocabulary
  focused : Bool
deriving Repr, Inhabited

namespace TokensPanel

/-- A token with its place, its name and its text. Tokens that the parser does not read are grey. -/
def row (p : TokensPanel) (t : Token) (current : Bool) : List Run :=
  let place := Text.padLeft 3 (toString t.line) ++ ":" ++ Text.padRight 3 (toString t.column) ++ " "
  let runs : List Run := [
    { text := if current then "▶ " else "  ", style := .colored Theme.orange },
    { text := place, style := .colored Theme.grey },
    { text := Text.padRight 12 (p.vocabulary.displayName t.type) ++ " "
      style := .colored Theme.cyan },
    { text := Text.quoted t.text
      style := .colored (if t.isRead then Theme.orange else Theme.grey) }]
  if current then runs.map (·.on Theme.currentLine) else runs

/-- Without the focus, the panel follows the current token. -/
def scrolled (p : TokensPanel) (ts : Tokens) (shown offset : Nat) : Nat :=
  min (if p.focused then offset else ts.position - shown / 2) (ts.size - shown)

def draw (p : TokensPanel) (a : Area) (offset : Nat) (c : Canvas) : Nat × Canvas :=
  let border := Theme.border p.focused
  match p.tokens with
  | none =>
    (offset, ((c.fill a (.colored Theme.grey)).box a " Tokens " border).text a.inside
      [[{ text := "(not started)" }]])
  | some ts =>
    let offset := p.scrolled ts a.shownRows offset
    let items : List Canvas.Item := ((ts.toList.drop offset).take a.shownRows).map fun t =>
      { rows := [p.row t (t.index == ts.position)] }
    (offset, (c.box a " Tokens " border).list a.inside items)

end TokensPanel

end GrammarWalk
