import GrammarWalk.Debug.Session
import GrammarWalk.Panel.Output
import GrammarWalk.Panel.Source
import GrammarWalk.Panel.Stack
import GrammarWalk.Panel.Status
import GrammarWalk.Workbench.Keys

/-!
The workbench: a session behind panels and keys. Breakpoints are asked for on lines of the grammar
text, and every change asks for all of them anew.
-/

namespace GrammarWalk

inductive Focus
  | source | output | stack | tokens
deriving DecidableEq, Repr, Inhabited

def Focus.next : Focus → Focus
  | source => output
  | output => stack
  | stack => tokens
  | tokens => source

/-- Puts a number into an ascending list, unless it is there. -/
def insertSorted (n : Nat) : List Nat → List Nat
  | [] => [n]
  | m :: ms => if n < m then n :: m :: ms else if n = m then m :: ms else m :: insertSorted n ms

structure Workbench where
  session : Session
  /-- The text of the grammar. -/
  text : String
  input : String
  /-- The rule the input is parsed with. -/
  rule : Nat
  focus : Focus := .source
  sourceScroll : SourceScroll := {}
  stackScroll : StackScroll := {}
  tokensScroll : Nat := 0
  outputScroll : Nat := 0
  /-- The line of the cursor, counted from one. -/
  cursor : Nat := 1
  /-- The lines on which breakpoints are asked for, in ascending order. -/
  requested : List Nat := []
  /-- The lines on which bound breakpoints are shown, in ascending order. -/
  breakpointLines : List Nat := []
  output : List Message := []
  progress : Progress := .stopped
  status : String := "Ready!"
  /-- The user wants to leave. -/
  quit : Bool := false
deriving Repr, Inhabited

namespace Workbench

def report (w : Workbench) (e : Event) : Except Fault Workbench := do
  match e with
  | .finished =>
    let tree ← w.session.treeText?
    let shown : List Message := tree.toList.map fun text => { text }
    return { w with
      progress := .finished, status := "Parse finished", output := w.output ++ shown }
  | .hit s =>
    return { w with progress := .atBreakpoint, status := s!"Breakpoint hit at state {s}" }
  | .stepped s => return { w with progress := .stopped, status := s!"Stopped after state {s}" }
  | .bound b => return { w with breakpointLines := insertSorted b.line w.breakpointLines }
  | .output message _ line column isError =>
    let shown : Message := { text := s!"line {line}:{column} {message}", isError }
    return { w with output := w.output ++ [shown] }

/-- Shows what the session has reported, with the end of the output in view. -/
def takeEvents (w : Workbench) : Except Fault Workbench := do
  let (events, session) := w.session.drainEvents
  let w ← events.foldlM report { w with session }
  return { w with outputScroll := Scroll.last }

/-- Starts the session; if that is refused, only the output is cleared. -/
def start (w : Workbench) : Except Fault (Option Misuse × Workbench) := do
  let w := { w with output := [] }
  match w.session.start w.rule w.input with
  | .ok session => return (none, ← takeEvents { w with session })
  | .error (.misuse m) => return (some m, w)
  | .error (.fault f) => throw f

def refused (w : Workbench) (m : Misuse) : Workbench := { w with status := s!"Error: {m.message}" }

def restart (w : Workbench) : Except Fault Workbench := do
  let (refusal, w) ← w.start
  return refusal.elim w w.refused

def resume (w : Workbench) (mode : RunMode) : Except Fault Workbench :=
  match w.session.resume mode with
  | .ok session => takeEvents { w with session }
  | .error (.misuse m) => return w.refused m
  | .error (.fault f) => throw f

/-- The line to toggle: where the breakpoint shown at the cursor was asked for, or the cursor's. -/
def toggledLine (w : Workbench) : Nat :=
  let shown := w.session.breakpoints.entries.find? fun b => b.validated && b.line == w.cursor
  (shown.map (·.requestedLine)).getD w.cursor

/-- Asks for breakpoints on lines, and counts those that are not bound. -/
def addBreakpoints (s : Session) (source : String) (lines : List Nat) : Nat × Session :=
  lines.foldl (fun (unbound, s) line =>
    let (b, s) := s.addBreakpoint source line
    (if b.validated then unbound else unbound + 1, s)) (0, s)

def toggleBreakpoint (w : Workbench) : Except Fault Workbench := do
  let line := w.toggledLine
  let requested :=
    if w.requested.contains line then w.requested.erase line else insertSorted line w.requested
  let (unbound, session) :=
    addBreakpoints w.session.clearBreakpoints w.session.grammar.source requested
  let w ← takeEvents { w with requested, session, breakpointLines := [] }
  let status :=
    if unbound = 0 then s!"{w.breakpointLines.length} breakpoint(s) set"
    else s!"{unbound} breakpoint(s) not on a rule declaration"
  return { w with status }

/-- Moves the cursor, or what the panel with the focus shows, up by one line. -/
def moveUp (w : Workbench) : Workbench :=
  match w.focus with
  | .source => { w with cursor := max (w.cursor - 1) 1 }
  | .output => { w with outputScroll := Scroll.up w.outputScroll }
  | .stack => { w with stackScroll.offset := Scroll.up w.stackScroll.offset }
  | .tokens => { w with tokensScroll := Scroll.up w.tokensScroll }

/-- The same, down by one line. -/
def moveDown (w : Workbench) : Workbench :=
  match w.focus with
  | .source => { w with cursor := min (w.cursor + 1) (max (Text.lines w.text).length 1) }
  | .output => { w with outputScroll := Scroll.down w.outputScroll }
  | .stack => { w with stackScroll.offset := Scroll.down w.stackScroll.offset }
  | .tokens => { w with tokensScroll := Scroll.down w.tokensScroll }

def press (w : Workbench) : Key → Except Fault Workbench
  | .char 'q' | .char 'Q' => return { w with quit := true }
  | .char 'c' => w.resume .normal
  | .char 'i' | .right => w.resume .stepIn
  | .char 'o' => w.resume .stepOver
  | .char 'u' => w.resume .stepOut
  | .char 'b' => w.toggleBreakpoint
  | .char 'r' => w.restart
  | .tab => return { w with focus := w.focus.next }
  | .up => return w.moveUp
  | .down => return w.moveDown
  | .left | .char _ => return w

end Workbench

end GrammarWalk
