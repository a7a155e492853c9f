import GrammarWalk.Debug.CallStack
import GrammarWalk.Debug.Event
import GrammarWalk.Loop
import GrammarWalk.Outline.Next
import GrammarWalk.Parse.Walker
import GrammarWalk.Tokenizer.Scan

/-!
Debugging sessions: a parse that runs until a breakpoint, the end of a step or its own end, with the
stack of the rules it is inside of.
-/

namespace GrammarWalk

/-- How far a run goes. -/
inductive RunMode
  /-- To a breakpoint or the end. -/
  | normal
  /-- To the next entry of a rule or match of a token. -/
  | stepIn
  /-- The same, but a rule about to be entered runs to its end. -/
  | stepOver
  /-- To the end of the current rule. -/
  | stepOut
deriving DecidableEq, Repr, Inhabited

structure Session where
  parser : Network
  lexer : Network
  grammar : Grammar
  outline : Outline
  /-- A start reports a step at the first state and does not run. -/
  stopOnEntry : Bool := false
  /-- The parse, once there is one. -/
  walker : Option Walker := none
  callStack : CallStack := {}
  breakpoints : Breakpoints := {}
  events : EventQueue := {}
  diagnostics : List Diagnostic := []
deriving Repr, Inhabited

namespace Session

/-- A session over networks of the right kinds. -/
def create (parser lexer : Network) (grammar : Grammar) (outline : Outline) (stopOnEntry : Bool) :
    Except Misuse Session := do
  if parser.kind ≠ .parser then throw (.wrongKind .parser parser.kind)
  if lexer.kind ≠ .lexer then throw (.wrongKind .lexer lexer.kind)
  return { parser, lexer, grammar, outline, stopOnEntry }

def report (s : Session) (e : Event) : Session := { s with events := s.events.push e }

/-- The next edge of a state enters a rule, or the state itself does. -/
def entersRule (st : State) : Bool :=
  st.isRuleStart || match st.edges with
    | [.call _] => true
    | _ => false

/-- A single step ends after a state that enters a rule or takes input. -/
def isStepPoint (st : State) : Bool :=
  match st.kind with
  | .ruleStart .. => true
  | .basic => st.edges.any (!·.isSilent)
  | _ => false

def pushFrame (s : Session) (rule : Nat) : Session :=
  let name := s.grammar.ruleName rule
  let symbol := s.outline.resolve? name
  let known := if s.grammar.source.isEmpty then none else some s.grammar.source
  let source := (symbol.bind fun _ => s.outline.source?).or known
  let frame : Frame := { rule, name, source, current := symbol.toList, next := symbol.toList }
  { s with callStack := s.callStack.push frame }

/-- What edge `e` looks for in an outline. -/
def filterOf? (s : Session) : Edge → Option Outline.Filter
  | .call c => some (.rule (s.grammar.ruleName c.rule))
  | e => Outline.Filter.ofEdge? e s.parser.maxToken

/-- Moves the innermost frame on to the parts of the outline that edge `e` will match. -/
def moveOn (s : Session) (e : Edge) : Except Fault Session := do
  match s.filterOf? e, s.callStack.current? with
  | some filter, some f =>
    let next ← s.outline.nextLeaves f.next filter
    return { s with callStack := s.callStack.replace { f with current := f.next, next } }
  | _, _ => return s

def reportFailure (s : Session) (w : Walker) (f : Failure) : Session :=
  let t := w.tokens.get f.offending
  { s with events := s.events.error (f.describe w.tokens s.grammar) none t.line t.column }

/-- What a run remembers of its start. -/
structure Run where
  mode : RunMode
  /-- The depth of the call stack. -/
  depth : Nat
  /-- The run is to go past a rule that it was about to enter. -/
  skips : Bool
deriving DecidableEq, Repr, Inhabited

/-- The answer whether to stop, with an event for the case that it is yes. -/
def stopIf (s : Session) (stop : Bool) (e : Event) : Bool × Session :=
  (stop, if stop then s.report e else s)

/-- Leaves the rule on whose stop state `p` the parse stands; the answer tells whether to stop. -/
def leaveRule (s : Session) (run : Run) (w : Walker) (p : Nat) : Except Fault (Bool × Session) := do
  if ← w.atRoot then
    let w ← w.finishRoot
    return stopIf { s with walker := some w, callStack := s.callStack.pop } true .finished
  else
    let w ← w.visitStop
    let s := { s with walker := some w, callStack := s.callStack.pop }
    let depth := s.callStack.depth
    let out := run.mode == .stepOut && depth < run.depth
    let past := run.skips && depth == run.depth
    return s.stopIf (out || past) (.stepped p)

def takeEdge (s : Session) (w : Walker) : Except Fault Session := do
  match ← w.visit with
  | .ok w => return { s with walker := some w }
  | .error f => return { s.reportFailure w f with walker := some (← w.fail f) }

/-- Moves the innermost frame on, if the one edge of a state matches or calls. -/
def moveAlong (s : Session) (st : State) : Except Fault Session :=
  match st.edges with
  | [e] => if e.matchesOrCalls then s.moveOn e else return s
  | _ => return s

/-- Takes an edge out of state `p`; the answer tells whether to stop. -/
def passState (s : Session) (run : Run) (w : Walker) (st : State) (p : Nat) :
    Except Fault (Bool × Session) := do
  let s := if st.isRuleStart then s.pushFrame (st.rule.getD 0) else s
  let s ← s.takeEdge w
  let stepping := run.mode == .stepIn || run.mode == .stepOver && !run.skips
  if s.breakpoints.isHit p then return s.stopIf true (.hit p)
  else return s.stopIf (stepping && isStepPoint st) (.stepped p)

/-- One step of a run; the answer tells whether the run stops. -/
def step (s : Session) (run : Run) (w : Walker) : Except Fault (Bool × Session) := do
  let st ← s.parser.state w.state
  let s ← s.moveAlong st
  if st.isRuleStop then s.leaveRule run w w.state else s.passState run w st w.state

def runStep (run : Run) (s : Session) : Except RunError (Bool × Session) :=
  match s.walker with
  | none => throw (.misuse .notStarted)
  | some w => s.step run w

/-- Runs on until the stop condition of a mode. A finished parse stays finished. -/
def resume (s : Session) (mode : RunMode) : Except RunError Session :=
  match s.walker with
  | none => throw (.misuse .notStarted)
  | some w => do
    if w.finished then return s.report .finished
    let st ← s.parser.state w.state
    let run : Run :=
      { mode, depth := s.callStack.depth, skips := mode == .stepOver && entersRule st }
    Loop.runOr (.fault .unfinished) (runStep run) s

/-- Stands on the start state of a rule before the tokens of `input`. -/
def enter (s : Session) (rule : Nat) (input : String) : Except RunError (Walker × Session) := do
  if rule ≥ s.parser.ruleCount then throw (.misuse (.unknownRule rule s.parser.ruleCount))
  let (tokens, diagnostics) ← Tokenizer.tokenize s.lexer input
  let events := diagnostics.foldl (fun q d => q.error d.message none d.line d.column) s.events
  let w ← ({ net := s.parser, tokens := .ofList tokens } : Walker).enterRoot rule
  let (bound, breakpoints) := s.breakpoints.reset.validateAll s.parser s.grammar
  let events := bound.foldl (fun q b => q.push (.bound b)) events
  return (w, { s with diagnostics, walker := some w, callStack := {}, breakpoints, events })

/-- Begins to parse `input` with a rule, and runs unless the session stops on entry. -/
def start (s : Session) (rule : Nat) (input : String) : Except RunError Session := do
  let (w, s) ← s.enter rule input
  if s.stopOnEntry then return s.report (.stepped w.state) else s.resume .normal

/-- Asks for a breakpoint, which is bound at once if a rule is declared on the line. -/
def addBreakpoint (s : Session) (source : String) (line : Nat) : Breakpoint × Session :=
  let (asked, breakpoints) := s.breakpoints.add source line
  match breakpoints.validate s.parser s.grammar asked.id with
  | (some b, breakpoints) => (b, report { s with breakpoints } (.bound b))
  | (none, breakpoints) => (asked, { s with breakpoints })

def clearBreakpoints (s : Session) : Session := { s with breakpoints := s.breakpoints.clear }

def isValidated (s : Session) (id : Nat) : Bool := (s.breakpoints.get? id).any (·.validated)

def drainEvents (s : Session) : List Event × Session :=
  let (events, rest) := s.events.drain
  (events, { s with events := rest })

def state? (s : Session) : Option Nat := s.walker.map (·.state)

def tokens? (s : Session) : Option Tokens := s.walker.map (·.tokens)

def tree? (s : Session) : Option Tree := s.walker.map (·.tree)

def treeText? (s : Session) : Except Fault (Option String) :=
  s.walker.mapM fun w => w.tree.text w.tokens s.grammar

def isFinished (s : Session) : Bool := s.walker.any (·.finished)

def failures (s : Session) : List Failure := (s.walker.map (·.failures)).getD []

end Session

end GrammarWalk
