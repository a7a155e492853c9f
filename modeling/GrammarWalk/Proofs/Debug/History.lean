import GrammarWalk.Debug.Session
import GrammarWalk.Proofs.Loop
import GrammarWalk.Proofs.Outcome

/-! The way in which a session is stepped through leaves no trace in its parse: breakpoints, modes
and the events fetched on the way change when a run stops, and never what a step does. -/

namespace GrammarWalk

def Event.isError : Event → Bool
  | .output _ _ _ _ isError => isError
  | _ => false

namespace Session

/-- What a host can ask of a session that has been started. -/
inductive Request
  | resume (mode : RunMode)
  | addBreakpoint (source : String) (line : Nat)
  | clearBreakpoints
  | drainEvents
deriving DecidableEq, Repr, Inhabited

/-- A session, and the events that were fetched from it. -/
structure Record where
  fetched : List Event := []
  session : Session

/-- What a parse comes to. -/
structure Outcome where
  tree : Option Tree
  failures : List Failure
  /-- The place of the current token. -/
  position : Option Nat
  errors : List Event
deriving DecidableEq

namespace Record

def serve (r : Record) : Request → Except RunError Record
  | .resume mode => return { r with session := ← r.session.resume mode }
  | .addBreakpoint source line =>
    return { r with session := (r.session.addBreakpoint source line).2 }
  | .clearBreakpoints => return { r with session := r.session.clearBreakpoints }
  | .drainEvents =>
    let (events, session) := r.session.drainEvents
    return { fetched := r.fetched ++ events, session }

/-- All error messages, fetched or not. -/
def errors (r : Record) : List Event := (r.fetched ++ r.session.events.events).filter Event.isError

def outcome (r : Record) : Outcome where
  tree := r.session.tree?
  failures := r.session.failures
  position := r.session.tokens?.map (·.position)
  errors := r.errors

end Record

/-- A start and the requests after it. -/
def history (s : Session) (rule : Nat) (input : String) (requests : List Request) :
    Except RunError Record := do
  requests.foldlM Record.serve { session := ← s.start rule input }

/-- What of a session a parse depends on: all but the breakpoints, and of the events the errors. -/
def core (fetched : List Event) (s : Session) : Session :=
  { s with
    breakpoints := {}, stopOnEntry := false
    events := { events := (fetched ++ s.events.events).filter Event.isError } }

/-- A run that nothing but the end of the parse stops, when there are no breakpoints. -/
def plainRun : Run := { mode := .normal, depth := 0, skips := false }

section core

variable {f : List Event} {s s' : Session} {w : Walker} {run : Run} {stop : Bool}

theorem core_report {e : Event} (h : e.isError = false) : core f (s.report e) = core f s := by
  simp [core, report, EventQueue.push, h]

theorem core_reportFailure {failure : Failure} :
    core f (s.reportFailure w failure) = (core f s).reportFailure w failure := by
  simp [core, reportFailure, EventQueue.error, EventQueue.push, Event.isError]

theorem core_moveOn {e : Edge} : (s.moveOn e).map (core f) = (core f s).moveOn e := by
  have hfilter : (core f s).filterOf? e = s.filterOf? e := by cases e <;> rfl
  have hstack : (core f s).callStack = s.callStack := rfl
  unfold moveOn
  rw [hfilter, hstack]
  cases s.filterOf? e with
  | none => rfl
  | some filter =>
    cases s.callStack.current? with
    | none => rfl
    | some frame =>
      show ((s.outline.nextLeaves frame.next filter).bind fun next => _).map _ =
        (s.outline.nextLeaves frame.next filter).bind fun next => _
      cases s.outline.nextLeaves frame.next filter <;> rfl

theorem core_takeEdge : (s.takeEdge w).map (core f) = (core f s).takeEdge w := by
  unfold takeEdge
  cases w.visit with
  | error e => rfl
  | ok r =>
    cases r with
    | ok w' => rfl
    | error failure =>
      show ((w.fail failure).bind fun w' => _).map _ = (w.fail failure).bind fun w' => _
      cases w.fail failure with
      | error e => rfl
      | ok w' =>
        show Except.ok _ = Except.ok _
        rw [← core_reportFailure]
        rfl

theorem core_core : core [] (core f s) = core f s := by
  simp [core]

theorem core_moveAlong {st : State} : (s.moveAlong st).map (core f) = (core f s).moveAlong st := by
  unfold moveAlong
  split
  · split
    · exact core_moveOn
    · rfl
  · rfl

theorem core_stopIf {e : Event} (he : e.isError = false) :
    core f (s.stopIf stop e).2 = core f s := by
  cases stop with
  | false => rfl
  | true => exact core_report he

theorem core_leaveRule {p : Nat} : (s.leaveRule run w p).map (fun r => core f r.2) =
    ((core f s).leaveRule plainRun w p).map fun r => core [] r.2 := by
  unfold leaveRule
  cases w.atRoot with
  | error e => rfl
  | ok root =>
    cases root with
    | true =>
      show ((w.finishRoot).bind fun w' => _).map _ = ((w.finishRoot).bind fun w' => _).map _
      cases w.finishRoot with
      | error e => rfl
      | ok w' =>
        show Except.ok (core f (stopIf _ _ _).2) = Except.ok (core [] (stopIf _ _ _).2)
        rw [core_stopIf rfl, core_stopIf rfl]
        exact congrArg Except.ok core_core.symm
    | false =>
      show ((w.visitStop).bind fun w' => _).map _ = ((w.visitStop).bind fun w' => _).map _
      cases w.visitStop with
      | error e => rfl
      | ok w' =>
        show Except.ok (core f (stopIf _ _ _).2) = Except.ok (core [] (stopIf _ _ _).2)
        rw [core_stopIf rfl, core_stopIf rfl]
        exact congrArg Except.ok core_core.symm

theorem core_passState {st : State} {p : Nat} : (s.passState run w st p).map (fun r => core f r.2) =
    ((core f s).passState plainRun w st p).map fun r => core [] r.2 := by
  unfold passState
  have hframe : core f (if st.isRuleStart then s.pushFrame (st.rule.getD 0) else s) =
      if st.isRuleStart then (core f s).pushFrame (st.rule.getD 0) else core f s := by
    split <;> rfl
  rw [← hframe]
  generalize (if st.isRuleStart then s.pushFrame (st.rule.getD 0) else s) = t
  simp only [← core_takeEdge]
  cases t.takeEdge w with
  | error e => rfl
  | ok u =>
    show (if u.breakpoints.isHit p then Except.ok (u.stopIf _ _) else .ok (u.stopIf _ _)).map _ =
      Except.ok (core [] (core f u))
    rw [core_core]
    split
    · exact congrArg Except.ok (core_stopIf rfl)
    · exact congrArg Except.ok (core_stopIf rfl)

theorem core_step : (s.step run w).map (fun r => core f r.2) =
    ((core f s).step plainRun w).map fun r => core [] r.2 := by
  unfold step
  show ((s.parser.state w.state).bind fun st => _).map _ =
    ((s.parser.state w.state).bind fun st => _).map _
  cases s.parser.state w.state with
  | error e => rfl
  | ok st =>
    show ((s.moveAlong st).bind fun t => _).map _ =
      (((core f s).moveAlong st).bind fun t => _).map _
    rw [← core_moveAlong]
    cases s.moveAlong st with
    | error e => rfl
    | ok t =>
      show (if st.isRuleStop then t.leaveRule run w w.state
        else t.passState run w st w.state).map _ =
        (if st.isRuleStop then (core f t).leaveRule plainRun w w.state
          else (core f t).passState plainRun w st w.state).map _
      split
      · exact core_leaveRule
      · exact core_passState

end core

end Session

end GrammarWalk
