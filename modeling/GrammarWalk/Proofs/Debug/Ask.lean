import GrammarWalk.Proofs.Debug.Stepping
import GrammarWalk.Proofs.Network.Wired

/-! What a host asks of a session, one call after the other. A call whose run takes a few steps only
can be evaluated. -/

namespace GrammarWalk.Session

/-- A call of the host. -/
inductive Ask
  | start (rule : Nat) (input : String)
  | resume (mode : RunMode)
  | addBreakpoint (source : String) (line : Nat)
  | clearBreakpoints
  | drainEvents
deriving DecidableEq, Repr, Inhabited

/-- What a call leaves of a session. A call is refused before it changes anything. -/
def answer (s : Session) : Ask → Session
  | .start rule input => (s.start rule input).toOption.getD s
  | .resume mode => (s.resume mode).toOption.getD s
  | .addBreakpoint source line => (s.addBreakpoint source line).2
  | .clearBreakpoints => s.clearBreakpoints
  | .drainEvents => s.drainEvents.2

variable {n : Nat} {s t : Session} {mode : RunMode} {asks : List Ask}

/-- The result of a resumption, if it takes at most `n` steps. -/
def resumeWithin (n : Nat) (s : Session) (mode : RunMode) : Option Session := do
  let w ← s.walker
  if w.finished then return s.report .finished
  let st ← s.parser.states[w.state]?
  let run : Run := { mode, depth := s.callStack.depth, skips := mode == .stepOver && entersRule st }
  (← Loop.unroll (runStep run) n s).toOption

theorem resume_of_within (h : s.resumeWithin n mode = some t) : s.resume mode = .ok t := by
  simp only [resumeWithin, Option.bind_eq_bind, Option.bind_eq_some_iff] at h
  obtain ⟨w, hw, h⟩ := h
  unfold resume
  rw [hw]
  dsimp only
  split at h
  · rename_i hf
    rw [if_pos hf]
    exact pure_eq_ok.2 (Option.some.inj h)
  · rename_i hf
    simp only [Option.bind_eq_some_iff] at h
    obtain ⟨st, hst, r, hr, h⟩ := h
    rw [if_neg hf, bind_eq_ok]
    refine ⟨st, liftM_run_eq_ok.2 (Network.state_eq_ok.2 hst), ?_⟩
    rw [Loop.runOr, Loop.run_of_unroll hr]
    cases r with
    | error e => cases h
    | ok u => exact congrArg _ (Option.some.inj h)

/-- The result of a call, if its run takes at most `n` steps. -/
def answerWithin (n : Nat) (s : Session) : Ask → Option Session
  | .start rule input =>
    match s.enter rule input with
    | .ok (w, u) =>
      if u.stopOnEntry then some (u.report (.stepped w.state)) else u.resumeWithin n .normal
    | .error _ => none
  | .resume mode => s.resumeWithin n mode
  | ask => some (s.answer ask)

theorem start_of_within {rule : Nat} {input : String}
    (h : s.answerWithin n (.start rule input) = some t) : s.start rule input = .ok t := by
  rw [answerWithin] at h
  split at h
  · rename_i w u henter
    rw [start, bind_eq_ok]
    refine ⟨(w, u), henter, ?_⟩
    dsimp only
    split at h
    · rename_i hentry
      rw [if_pos hentry]
      exact pure_eq_ok.2 (Option.some.inj h)
    · rename_i hentry
      rw [if_neg hentry]
      exact resume_of_within h
  · cases h

theorem answer_of_within {ask : Ask} (h : s.answerWithin n ask = some t) : s.answer ask = t := by
  cases ask with
  | start rule input =>
    rw [answer, start_of_within h]
    rfl
  | resume mode =>
    rw [answer, resume_of_within h]
    rfl
  | addBreakpoint source line => exact Option.some.inj h
  | clearBreakpoints => exact Option.some.inj h
  | drainEvents => exact Option.some.inj h

theorem answers_of_within (h : asks.foldlM (answerWithin n) s = some t) :
    asks.foldl answer s = t := by
  induction asks generalizing s with
  | nil => exact Option.some.inj h
  | cons ask asks ih =>
    rw [List.foldlM_cons] at h
    obtain ⟨u, hu, h⟩ := Option.bind_eq_some_iff.1 h
    rw [List.foldl_cons, answer_of_within hu]
    exact ih h

/-- What holds of a session after calls that take a few steps each, as an evaluation shows. -/
theorem answers_of_any (n : Nat) (s : Session) (asks : List Ask) (p : Session → Bool)
    (h : (asks.foldlM (answerWithin n) s).any p = true) : p (asks.foldl answer s) = true := by
  cases ht : asks.foldlM (answerWithin n) s with
  | none =>
    rw [ht] at h
    cases h
  | some t =>
    rw [ht] at h
    rw [answers_of_within ht]
    exact h

end GrammarWalk.Session
