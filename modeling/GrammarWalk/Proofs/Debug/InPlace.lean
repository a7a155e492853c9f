import GrammarWalk.Proofs.Debug.Stepping

/-! The calls that run a session, as they change it: every effect in its turn, so that a call that
fails leaves what it has done by then. They come to the same as the calls that give a new session,
and a call that is refused is refused before its first effect. -/

namespace GrammarWalk.Session

/-- A call that runs a session. -/
inductive Call
  | start (rule : Nat) (input : String)
  | resume (mode : RunMode)
deriving DecidableEq, Repr, Inhabited

def call (s : Session) : Call → Except RunError Session
  | .start rule input => s.start rule input
  | .resume mode => s.resume mode

/-- A failure at this point of a call leaves the session as it is by then. -/
def tagged {α : Type} (s : Session) (x : Except RunError α) : Except (RunError × Session) α :=
  x.mapError fun e => (e, s)

def runInPlace (s : Session) (run : Run) : Except (RunError × Session) Session :=
  Loop.runOr (.fault .unfinished, s) (fun u => u.tagged (runStep run u)) s

def resumeInPlace (s : Session) (mode : RunMode) : Except (RunError × Session) Session :=
  match s.walker with
  | none => throw (.misuse .notStarted, s)
  | some w => do
    if w.finished then return s.report .finished
    let st ← s.tagged (s.parser.state w.state)
    s.runInPlace { mode, depth := s.callStack.depth, skips := mode == .stepOver && entersRule st }

def startInPlace (s : Session) (rule : Nat) (input : String) :
    Except (RunError × Session) Session :=
  do
  if rule ≥ s.parser.ruleCount then throw (.misuse (.unknownRule rule s.parser.ruleCount), s)
  let (tokens, diagnostics) ← s.tagged (Tokenizer.tokenize s.lexer input)
  let s := { s with events := diagnostics.foldl (fun q (d : Diagnostic) =>
    q.error d.message none d.line d.column) s.events }
  let s := { s with diagnostics }
  let w ← s.tagged (({ net := s.parser, tokens := .ofList tokens } : Walker).enterRoot rule)
  let s := { s with walker := some w, callStack := {} }
  let (bound, breakpoints) := s.breakpoints.reset.validateAll s.parser s.grammar
  let s := { s with breakpoints }
  let s := { s with events := bound.foldl (fun q b => q.push (.bound b)) s.events }
  if s.stopOnEntry then return s.report (.stepped w.state) else s.resumeInPlace .normal

/-- A call, in place: the session that it leaves, with the error if it fails. -/
def perform (s : Session) : Call → Except (RunError × Session) Session
  | .start rule input => s.startInPlace rule input
  | .resume mode => s.resumeInPlace mode

variable {s t : Session} {mode : RunMode} {m : Misuse}

/-- What a call comes to, whatever it leaves on the way. -/
def settled {α : Type} (x : Except (RunError × Session) α) : Except RunError α :=
  x.mapError Prod.fst

@[simp] theorem settled_tagged {α : Type} (s : Session) (x : Except RunError α) :
    settled (s.tagged x) = x := by
  cases x <;> rfl

theorem settled_bind {α β : Type} {x : Except (RunError × Session) α}
    {f : α → Except (RunError × Session) β} :
    settled (x >>= f) = settled x >>= fun a => settled (f a) := by
  cases x <;> rfl

theorem settled_resumeInPlace : settled (s.resumeInPlace mode) = s.resume mode := by
  unfold resumeInPlace resume
  cases s.walker with
  | none => rfl
  | some w =>
    dsimp only
    split
    · rfl
    · rw [settled_bind, settled_tagged]
      refine bind_congr fun st => ?_
      exact Loop.runOr_mapError fun u => settled_tagged u _

theorem settled_startInPlace {rule : Nat} {input : String} :
    settled (s.startInPlace rule input) = s.start rule input := by
  unfold startInPlace start enter
  split
  · rfl
  · simp only [settled_bind, settled_tagged, bind_assoc]
    refine bind_congr fun (tokens, diagnostics) => ?_
    refine bind_congr fun w => ?_
    rw [pure_bind]
    dsimp only
    split
    · rfl
    · exact settled_resumeInPlace

theorem settled_perform (s : Session) (c : Call) : settled (s.perform c) = s.call c := by
  cases c with
  | start rule input => exact settled_startInPlace
  | resume mode => exact settled_resumeInPlace

theorem tagged_eq_error {α : Type} {x : Except RunError α} {e : RunError} :
    s.tagged x = .error (e, t) ↔ x = .error e ∧ t = s := by
  rw [tagged, mapError_eq_error]
  constructor
  · rintro ⟨_, hx, h⟩
    obtain ⟨rfl, rfl⟩ := Prod.mk.inj h
    exact ⟨hx, rfl⟩
  · rintro ⟨hx, rfl⟩
    exact ⟨e, hx, rfl⟩

theorem misuse_ne_fault {α : Type} {x : Except Fault α} :
    (liftM x : Except RunError α) ≠ .error (.misuse m) := by
  cases x <;> simp [MonadLiftT.monadLift, liftM, MonadLift.monadLift, Except.mapError]

theorem not_misuse_runInPlace {w : Walker} {run : Run} (hw : s.walker = some w) :
    s.runInPlace run ≠ .error (.misuse m, t) := by
  intro h
  obtain hend | ⟨u, hu, hfails⟩ := Loop.runOr_eq_error h
  · cases hend
  · obtain ⟨v, hv⟩ : ∃ v, u.walker = some v := by
      clear hfails
      induction hu with
      | refl => exact ⟨w, hw⟩
      | tail _ hstep ih =>
        obtain ⟨v, hv⟩ := ih
        have hstep := (runStep_eq_ok hv).1 (mapError_eq_ok.1 hstep)
        cases (step_cases hstep).1 with
        | finishes v' hv' _ _ => exact ⟨v', hv'⟩
        | continues v' hv' _ _ => exact ⟨v', hv'⟩
    have hfails := (tagged_eq_error.1 hfails).1
    rw [runStep, hv] at hfails
    exact misuse_ne_fault hfails

theorem refused_resumeInPlace (h : s.resumeInPlace mode = .error (.misuse m, t)) :
    s.walker = none ∧ t = s := by
  unfold resumeInPlace at h
  split at h
  · rename_i hw
    exact ⟨hw, (Prod.mk.inj (Except.error.inj h)).2.symm⟩
  · rename_i w hw
    split at h
    · cases h
    · obtain hstate | ⟨st, -, hrun⟩ := bind_eq_error.1 h
      · exact absurd (tagged_eq_error.1 hstate).1 misuse_ne_fault
      · exact absurd hrun (not_misuse_runInPlace hw)

theorem refused_perform {c : Call} (h : s.perform c = .error (.misuse m, t)) : t = s := by
  cases c with
  | resume mode => exact (refused_resumeInPlace h).2
  | start rule input =>
    rw [perform, startInPlace] at h
    split at h
    · exact (Prod.mk.inj (Except.error.inj h)).2.symm
    · obtain htokens | ⟨⟨tokens, diagnostics⟩, -, h⟩ := bind_eq_error.1 h
      · exact (tagged_eq_error.1 htokens).2
      · obtain hroot | ⟨w, -, h⟩ := bind_eq_error.1 h
        · exact absurd (tagged_eq_error.1 hroot).1 misuse_ne_fault
        · dsimp only at h
          split at h
          · cases h
          · cases (refused_resumeInPlace h).1

end GrammarWalk.Session
