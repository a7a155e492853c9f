import GrammarWalk.Count
import GrammarWalk.Panel.Theme
import GrammarWalk.Screen.Widget
import GrammarWalk.Text.Lines

/-!
The panel with the messages of a session.
-/

namespace GrammarWalk

open Screen

structure Message where
  text : String
  isError : Bool := false
deriving DecidableEq, Repr, Inhabited

namespace Scroll

/-- A scroll position past any end; it comes back into the text when the text is drawn. -/
def last : Nat := Count.last

def up (offset : Nat) : Nat := offset - 1

def down (offset : Nat) : Nat := min (offset + 1) last

end Scroll

structure OutputPanel where
  messages : List Message
  focused : Bool
deriving DecidableEq, Repr, Inhabited

namespace OutputPanel

def item (m : Message) : Canvas.Item where
  rows := (if m.text.isEmpty then [[]] else Text.lines m.text).map fun line =>
    [{ text := String.ofList line }]
  style := .colored (if m.isError then Theme.red else Theme.text)

def draw (p : OutputPanel) (a : Area) (offset : Nat) (c : Canvas) : Nat × Canvas :=
  let border := Theme.border p.focused
  if p.messages.isEmpty then
    (offset, ((c.fill a (.colored Theme.grey)).box a " Output " border).text a.inside
      [[{ text := "(no output)" }]])
  else
    let offset := min offset (p.messages.length - a.shownRows)
    let items := ((p.messages.drop offset).take a.shownRows).map item
    (offset, (c.box a " Output " border).list (a.inside.dropColumns 1) items)

end OutputPanel

end GrammarWalk
