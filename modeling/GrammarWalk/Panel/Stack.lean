import GrammarWalk.Debug.CallStack
import GrammarWalk.Outline.Basic
import GrammarWalk.Panel.Theme
import GrammarWalk.Screen.Widget

/-!
The panel with the rules that a session is inside of, innermost first, and what they match next.
-/

namespace GrammarWalk

open Screen

structure StackScroll where
  offset : Nat := 0
  /-- The number of items when the panel was drawn last. -/
  items : Nat := 0
deriving DecidableEq, Repr, Inhabited

structure StackPanel where
  callStack : CallStack
  outline : Outline
  /-- The state of the parse, if there is one. -/
  state : Option Nat
  focused : Bool
deriving Repr, Inhabited

namespace StackPanel

def title (p : StackPanel) : String :=
  match p.state with
  | some s => s!" Call Stack (state {s}) "
  | none => " Call Stack "

/-- A frame with its depth, and a second item with the parts that it matches next. -/
def frameItems (p : StackPanel) (f : Frame) (depth : Nat) : Except Fault (List Canvas.Item) := do
  let name : Style :=
    if depth + 1 = p.callStack.depth then { foreground := some Theme.yellow, bold := true }
    else .colored Theme.muted
  let source : List Run := f.source.toList.map fun s =>
    { text := s!"  {s}", style := .colored Theme.grey }
  let header : Canvas.Item := { rows := [[
    { text := "▸ ", style := .colored Theme.orange },
    { text := s!"[{depth}] ", style := .colored Theme.grey },
    { text := f.name, style := name }] ++ source] }
  if f.next.isEmpty then return [header]
  let names ← f.next.mapM fun id => return (← p.outline.part id).name
  return [header, { rows := [[
    { text := "    at ", style := .colored Theme.grey },
    { text := " | ".intercalate names, style := .colored Theme.cyan }]] }]

def items (p : StackPanel) : Except Fault (List Canvas.Item) := do
  let frames := p.callStack.frames
  if frames.isEmpty then
    return [{ rows := [[{ text := "(empty)" }]], style := .colored Theme.grey }]
  let items ← frames.zipIdx.mapM fun (f, i) => p.frameItems f (frames.length - 1 - i)
  return items.flatten

/-- Back to the innermost frame when the number of items has changed. -/
def scrolled (total shown : Nat) (s : StackScroll) : StackScroll :=
  let offset := if total = s.items then s.offset else 0
  { offset := min offset (total - shown), items := total }

def draw (p : StackPanel) (a : Area) (s : StackScroll) (c : Canvas) :
    Except Fault (StackScroll × Canvas) := do
  let items ← p.items
  let s := scrolled items.length a.shownRows s
  let shown := (items.drop s.offset).take a.shownRows
  return (s, (c.box a p.title (Theme.border p.focused)).list a.inside shown)

end StackPanel

end GrammarWalk
