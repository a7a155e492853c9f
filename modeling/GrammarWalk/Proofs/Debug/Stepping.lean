import GrammarWalk.Proofs.Debug.History
import GrammarWalk.Proofs.Parse.Continues

/-! All histories of one start go through the same parses, in the same order, and stop at the same
one. A step of any run is a step of the plain run up to its core, and a finished parse has no
further step. -/

namespace GrammarWalk.Session

variable {s t u : Session} {w w' : Walker} {run : Run} {stop : Bool} {f : List Event}

section inversion

theorem moveAlong_cases {st : State} (h : s.moveAlong st = .ok t) :
    t = s ∨ ∃ f rest next, s.callStack.frames = f :: rest ∧
      t = { s with callStack := { frames := { f with current := f.next, next } :: rest } } := by
  unfold moveAlong at h
  split at h
  · split at h
    · unfold moveOn at h
      split at h
      · rename_i f _ hf
        simp only [bind_eq_ok, pure_eq_ok] at h
        obtain ⟨next, -, rfl⟩ := h
        obtain ⟨rest, hrest⟩ := List.head?_eq_some_iff.1 hf
        refine .inr ⟨f, rest, next, hrest, ?_⟩
        rw [CallStack.replace, CallStack.pop, hrest]
        rfl
      · exact .inl (pure_eq_ok.1 h).symm
    · exact .inl (pure_eq_ok.1 h).symm
  · exact .inl (pure_eq_ok.1 h).symm

theorem moveAlong_keeps {st : State} (h : s.moveAlong st = .ok t) :
    t.walker = s.walker ∧ t.breakpoints = s.breakpoints := by
  obtain rfl | ⟨f, rest, next, -, rfl⟩ := moveAlong_cases h <;> exact ⟨rfl, rfl⟩

theorem takeEdge_keeps (h : s.takeEdge w = .ok t) :
    (∃ w', t.walker = some w' ∧ w.Continues w') ∧ t.breakpoints = s.breakpoints := by
  rw [takeEdge, bind_eq_ok] at h
  obtain ⟨r, hr, h⟩ := h
  split at h
  · obtain rfl := pure_eq_ok.1 h
    exact ⟨⟨_, rfl, Walker.continues_visit hr⟩, rfl⟩
  · simp only [bind_eq_ok, pure_eq_ok] at h
    obtain ⟨w', hw', rfl⟩ := h
    exact ⟨⟨w', rfl, Walker.continues_fail hw'⟩, rfl⟩

/-- A step that gives the answer `stop` and the session `t` either finishes the parse, and then says
to stop, or continues it. -/
inductive Stepped (s : Session) (run : Run) (w : Walker) (stop : Bool) (t : Session) : Prop
  | finishes (w' : Walker) (walker : t.walker = some w') (finished : w'.finished = true)
      (stops : stop = true)
  | continues (w' : Walker) (walker : t.walker = some w') (continues : w.Continues w')
      (stops : run = plainRun → s.breakpoints.states = [] → stop = false)

theorem stopIf_keeps {e : Event} {b : Bool} (h : s.stopIf b e = (stop, t)) :
    stop = b ∧ t.walker = s.walker ∧ t.breakpoints = s.breakpoints := by
  obtain ⟨rfl, rfl⟩ := Prod.mk.inj h
  cases b <;> exact ⟨rfl, rfl, rfl⟩

theorem leaveRule_cases {p : Nat} (h : s.leaveRule run w p = .ok (stop, t)) :
    Stepped s run w stop t ∧ t.breakpoints = s.breakpoints := by
  rw [leaveRule, bind_eq_ok] at h
  obtain ⟨root, -, h⟩ := h
  split at h
  · simp only [bind_eq_ok, pure_eq_ok] at h
    obtain ⟨v, hv, h⟩ := h
    obtain ⟨rfl, hw, hb⟩ := stopIf_keeps h
    exact ⟨.finishes v hw (Walker.finished_finishRoot hv) rfl, hb⟩
  · simp only [bind_eq_ok, pure_eq_ok] at h
    obtain ⟨v, hv, h⟩ := h
    obtain ⟨rfl, hw, hb⟩ := stopIf_keeps h
    refine ⟨.continues v hw (Walker.continues_visitStop hv) ?_, hb⟩
    rintro rfl -
    rfl

theorem passState_cases {st : State} {p : Nat} (h : s.passState run w st p = .ok (stop, t)) :
    Stepped s run w stop t ∧ t.breakpoints = s.breakpoints := by
  have hframe : (if st.isRuleStart then s.pushFrame (st.rule.getD 0) else s).breakpoints =
      s.breakpoints := by
    split <;> rfl
  simp only [passState, bind_eq_ok] at h
  obtain ⟨v, hv, h⟩ := h
  obtain ⟨⟨w', hw', hcont⟩, hb⟩ := takeEdge_keeps hv
  rw [hframe] at hb
  split at h
  · rename_i hit
    obtain ⟨rfl, hw, hb'⟩ := stopIf_keeps (pure_eq_ok.1 h)
    refine ⟨.continues w' (hw.trans hw') hcont ?_, hb'.trans hb⟩
    intro _ hnone
    rw [Breakpoints.isHit, hb, hnone] at hit
    exact nomatch hit
  · obtain ⟨rfl, hw, hb'⟩ := stopIf_keeps (pure_eq_ok.1 h)
    refine ⟨.continues w' (hw.trans hw') hcont ?_, hb'.trans hb⟩
    rintro rfl -
    rfl

theorem step_cases (h : s.step run w = .ok (stop, t)) :
    Stepped s run w stop t ∧ t.breakpoints = s.breakpoints := by
  simp only [step, bind_eq_ok] at h
  obtain ⟨st, -, v, hv, h⟩ := h
  obtain ⟨-, hb⟩ := moveAlong_keeps hv
  have hstep : Stepped v run w stop t ∧ t.breakpoints = v.breakpoints := by
    split at h
    · exact leaveRule_cases h
    · exact passState_cases h
  refine ⟨?_, hstep.2.trans hb⟩
  cases hstep.1 with
  | finishes w' hw hf hs => exact .finishes w' hw hf hs
  | continues w' hw hc hs => exact .continues w' hw hc (hb ▸ hs)

theorem runStep_eq_ok (hw : s.walker = some w) :
    runStep run s = .ok (stop, t) ↔ s.step run w = .ok (stop, t) := by
  rw [runStep, hw]
  exact mapError_eq_ok

end inversion

/-- The parse of a session is under way. -/
def IsUnfinished (s : Session) : Prop := ∃ w, s.walker = some w ∧ w.finished = false

theorem step_again (hw : w.finished = false) (h : s.step run w = .ok (false, t)) :
    t.IsUnfinished := by
  cases (step_cases h).1 with
  | finishes _ _ _ hstop => exact nomatch hstop
  | continues w' hw' hc => exact ⟨w', hw', hc.finished.trans hw⟩

/-- A plain step of a parse that is under way, up to its core. -/
def Next (s t : Session) : Prop :=
  ∃ w, s.walker = some w ∧ w.finished = false ∧
    (s.step plainRun w).map (fun r => core [] r.2) = .ok t

theorem Next.unique (h : Next s t) (h' : Next s u) : t = u := by
  obtain ⟨w, hw, -, ht⟩ := h
  obtain ⟨w', hw', -, hu⟩ := h'
  obtain rfl : w = w' := Option.some.inj (hw.symm.trans hw')
  exact Except.ok.inj (ht.symm.trans hu)

theorem Next.unfinished (h : Next s t) : s.isFinished = false := by
  obtain ⟨w, hw, hf, -⟩ := h
  rw [isFinished, hw]
  exact hf

theorem next_core (hs : s.walker = some w) (hw : w.finished = false)
    (h : s.step run w = .ok (stop, t)) : Next (core f s) (core f t) := by
  refine ⟨w, hs, hw, ?_⟩
  rw [← @core_step _ _ _ run, h]
  rfl

theorem end_unique (ht : Relation.ReflTransGen Next s t) (hu : Relation.ReflTransGen Next s u)
    (hft : t.isFinished = true) (hfu : u.isFinished = true) : t = u := by
  have hend {a b : Session} (ha : a.isFinished = true) (h : Relation.ReflTransGen Next a b) :
      a = b := by
    obtain rfl | ⟨c, hc, -⟩ := h.cases_head
    · rfl
    · exact absurd (ha.symm.trans hc.unfinished) Bool.noConfusion
  have hunique : Relator.RightUnique Next := fun _ _ _ => Next.unique
  obtain h | h := Relation.ReflTransGen.total_of_right_unique hunique ht hu
  · exact hend hft h
  · exact (hend hfu h).symm

/-- The core of a session and of what was fetched from it. -/
def Record.core (r : Record) : Session := Session.core r.fetched r.session

theorem outcome_core (r : Record) : r.outcome = { session := r.core : Record }.outcome := by
  simp [Record.outcome, Record.core, Record.errors, Session.core, tree?, failures, tokens?]

theorem isFinished_core : (core f s).isFinished = s.isFinished := rfl

/-- One step of a parse that is under way, in a run of any kind. -/
def Advances (s t : Session) : Prop :=
  ∃ w run stop, s.walker = some w ∧ w.finished = false ∧ s.step run w = .ok (stop, t)

/-- The run of a parse that stands on state `st`. -/
def runFrom (s : Session) (mode : RunMode) (st : State) : Run :=
  { mode, depth := s.callStack.depth, skips := mode == .stepOver && entersRule st }

theorem resume_cases {mode : RunMode} (h : s.resume mode = .ok t) :
    ∃ w, s.walker = some w ∧
    (w.finished = true ∧ t = s.report .finished ∨ w.finished = false ∧
    ∃ st, s.parser.states[w.state]? = some st ∧
      Loop.runOr (.fault .unfinished) (runStep (s.runFrom mode st)) s = .ok t) := by
  unfold resume at h
  split at h
  · cases h
  · rename_i w hw
    refine ⟨w, hw, ?_⟩
    split at h
    · rename_i hf
      exact .inl ⟨hf, (pure_eq_ok.1 h).symm⟩
    · rename_i hf
      rw [bind_eq_ok] at h
      obtain ⟨st, hst, h⟩ := h
      exact .inr ⟨by simpa using hf, st, Network.state_eq_ok.1 (liftM_run_eq_ok.1 hst), h⟩

/-- What holds of a session with a parse under way, and is kept by each step of a run that is not
the last, holds before the last step. -/
theorem run_keeps {I : Session → Prop} {ε : RunError}
    (hstep : ∀ {a b : Session} {v : Walker}, I a → a.walker = some v → v.finished = false →
      a.step run v = .ok (false, b) → I b) (hs : I s) (hw : s.walker = some w)
    (hf : w.finished = false) (h : Loop.runOr ε (runStep run) s = .ok t) :
    ∃ u v, I u ∧ u.walker = some v ∧ v.finished = false ∧ u.step run v = .ok (true, t) := by
  obtain ⟨u, hu, hlast⟩ := Loop.runOr_eq_ok.1 h
  have hbefore : I u ∧ u.IsUnfinished := by
    clear hlast h
    induction hu with
    | refl => exact ⟨hs, w, hw, hf⟩
    | tail _ hagain ih =>
      obtain ⟨hI, v, hv, hfv⟩ := ih
      have hagain := (runStep_eq_ok hv).1 hagain
      exact ⟨hstep hI hv hfv hagain, step_again hfv hagain⟩
  obtain ⟨hI, v, hv, hfv⟩ := hbefore
  exact ⟨u, v, hI, hv, hfv, (runStep_eq_ok hv).1 hlast⟩

theorem resume_advances {mode : RunMode} (h : s.resume mode = .ok t) :
    t = s.report .finished ∨ Relation.ReflTransGen Advances s t := by
  obtain ⟨w, hw, ⟨-, rfl⟩ | ⟨hf, st, -, hrun⟩⟩ := resume_cases h
  · exact .inl rfl
  · obtain ⟨u, v, hchain, hv, hfv, hlast⟩ := run_keeps (I := Relation.ReflTransGen Advances s)
      (fun ha hv hfv hstep => ha.tail ⟨_, _, _, hv, hfv, hstep⟩) .refl hw hf hrun
    exact .inr (hchain.tail ⟨v, _, _, hv, hfv, hlast⟩)

section chains

theorem resume_chain {mode : RunMode} (h : s.resume mode = .ok t) :
    Relation.ReflTransGen Next (core f s) (core f t) := by
  obtain rfl | hchain := resume_advances h
  · rw [core_report rfl]
  · refine hchain.lift (core f) ?_
    rintro a b ⟨w, run, stop, hw, hf, hstep⟩
    exact next_core hw hf hstep

theorem core_addBreakpoint {source : String} {line : Nat} :
    core f (s.addBreakpoint source line).2 = core f s := by
  unfold addBreakpoint
  dsimp only
  split
  · exact core_report rfl
  · rfl

theorem serve_chain {r r' : Record} {q : Request} (h : r.serve q = .ok r') :
    Relation.ReflTransGen Next r.core r'.core := by
  cases q with
  | resume mode =>
    simp only [Record.serve, bind_eq_ok, pure_eq_ok] at h
    obtain ⟨t, ht, rfl⟩ := h
    exact resume_chain ht
  | addBreakpoint source line =>
    have hsame : Record.core { r with session := (r.session.addBreakpoint source line).2 } =
        r.core :=
      core_addBreakpoint
    rw [← pure_eq_ok.1 h, hsame]
  | clearBreakpoints =>
    rw [← pure_eq_ok.1 h]
    exact .refl
  | drainEvents =>
    have hsame : Record.core ⟨r.fetched ++ r.session.drainEvents.1, r.session.drainEvents.2⟩ =
        r.core := by
      simp [Record.core, core, drainEvents, EventQueue.drain]
    obtain rfl := pure_eq_ok.1 h
    exact hsame ▸ .refl

theorem start_chain {rule : Nat} {input : String} (h : s.start rule input = .ok t) :
    ∃ w u, s.enter rule input = .ok (w, u) ∧
      Relation.ReflTransGen Next (core [] u) (core [] t) := by
  simp only [start, bind_eq_ok] at h
  obtain ⟨⟨w, u⟩, hu, h⟩ := h
  refine ⟨w, u, hu, ?_⟩
  split at h
  · rw [← pure_eq_ok.1 h, core_report rfl]
  · exact resume_chain h

theorem history_chain {rule : Nat} {input : String} {requests : List Request} {r : Record}
    (h : s.history rule input requests = .ok r) :
    ∃ w u, s.enter rule input = .ok (w, u) ∧ Relation.ReflTransGen Next (core [] u) r.core := by
  simp only [history, bind_eq_ok] at h
  obtain ⟨t, ht, h⟩ := h
  obtain ⟨w, u, hu, hchain⟩ := start_chain ht
  refine ⟨w, u, hu, ?_⟩
  exact foldlM_keeps (P := fun r => Relation.ReflTransGen Next (core [] u) r.core)
    (fun _ _ _ _ hb hserve => hb.trans (serve_chain hserve)) hchain h

theorem errors_bound {bound : List Breakpoint} : ∀ {q : EventQueue},
    (bound.foldl (fun q b => q.push (.bound b)) q).events.filter Event.isError =
      q.events.filter Event.isError := by
  induction bound with
  | nil => exact rfl
  | cons b bound ih =>
    intro q
    rw [List.foldl_cons, ih, EventQueue.push, List.filter_append]
    exact List.append_nil _

theorem enter_eq_ok {rule : Nat} {input : String} (h : s.enter rule input = .ok (w, t)) :
    rule < s.parser.ruleCount ∧ ∃ tokens diagnostics,
      Tokenizer.tokenize s.lexer input = .ok (tokens, diagnostics) ∧
      ({ net := s.parser, tokens := .ofList tokens } : Walker).enterRoot rule = .ok w ∧
      t = { s with
        diagnostics, walker := some w, callStack := {}
        breakpoints := (s.breakpoints.reset.validateAll s.parser s.grammar).2
        events := (s.breakpoints.reset.validateAll s.parser s.grammar).1.foldl
          (fun q b => q.push (.bound b))
          (diagnostics.foldl (fun q d => q.error d.message none d.line d.column) s.events) } := by
  unfold enter at h
  by_cases hrule : rule ≥ s.parser.ruleCount
  · rw [if_pos hrule] at h
    exact nomatch h
  · rw [if_neg hrule] at h
    simp only [bind_eq_ok, pure_eq_ok, Prod.mk.injEq] at h
    obtain ⟨⟨tokens, diagnostics⟩, htokens, v, hv, rfl, rfl⟩ := h
    exact ⟨Nat.lt_of_not_le hrule, tokens, diagnostics, htokens, liftM_run_eq_ok.1 hv, rfl⟩

/-- Breakpoints and a stop on entry leave no trace in the core of a session that has just begun. -/
theorem enter_core {rule : Nat} {input : String} {v : Walker} {b : Breakpoints} {e : Bool}
    (b' : Breakpoints) (e' : Bool)
    (h : { s with breakpoints := b, stopOnEntry := e }.enter rule input = .ok (v, t)) :
    ∃ t', { s with breakpoints := b', stopOnEntry := e' }.enter rule input = .ok (v, t') ∧
      core [] t' = core [] t := by
  obtain ⟨hrule, tokens, diagnostics, htokens, hv, rfl⟩ := enter_eq_ok h
  unfold enter
  rw [if_neg (Nat.not_le.2 hrule)]
  refine ⟨_, bind_eq_ok.2 ⟨_, htokens, bind_eq_ok.2 ⟨_, liftM_run_eq_ok.2 hv, rfl⟩⟩, ?_⟩
  simp only [core, List.nil_append, errors_bound]

end chains

theorem unfinished_of_enter {rule : Nat} {input : String} (h : s.enter rule input = .ok (w, t)) :
    t.walker = some w ∧ w.finished = false ∧ t.callStack = {} := by
  obtain ⟨-, tokens, diagnostics, -, hv, rfl⟩ := enter_eq_ok h
  exact ⟨rfl, (Walker.continues_enterRoot hv).finished, rfl⟩

theorem states_of_enter {rule : Nat} {input : String} (hb : s.breakpoints = {})
    (h : s.enter rule input = .ok (w, t)) : t.breakpoints.states = [] := by
  obtain ⟨-, tokens, diagnostics, -, -, rfl⟩ := enter_eq_ok h
  rw [hb]
  rfl

/-- From a session without bound breakpoints the plain run goes through a chain up to its end. -/
theorem plainRun_chain (hs : s.breakpoints.states = []) (hw : s.IsUnfinished)
    (h : Relation.ReflTransGen Next (core [] s) t) (ht : t.isFinished = true) :
    ∃ r, Loop.runOr (.fault .unfinished) (runStep plainRun) s = .ok r ∧ core [] r = t := by
  obtain ⟨c, hc⟩ : ∃ c, c = core [] s := ⟨_, rfl⟩
  rw [← hc] at h
  induction h using Relation.ReflTransGen.head_induction_on generalizing s with
  | refl =>
    obtain ⟨w, hw, hf⟩ := hw
    subst hc
    rw [isFinished_core, isFinished, hw] at ht
    exact absurd (hf.symm.trans ht) Bool.noConfusion
  | head hnext hrest ih =>
    obtain ⟨w, hw, hf⟩ := hw
    obtain ⟨w', hw', -, hstep⟩ := hnext
    subst hc
    obtain rfl : w = w' := Option.some.inj (hw.symm.trans hw')
    rw [← @core_step _ _ _ plainRun, map_eq_ok] at hstep
    obtain ⟨⟨stop, u⟩, hstep, rfl⟩ := hstep
    have hrun := (@runStep_eq_ok _ _ _ plainRun _ hw).2 hstep
    obtain ⟨hcases, hb⟩ := step_cases hstep
    cases hcases with
    | finishes v hv hfv hstop =>
      subst hstop
      refine ⟨u, Loop.runOr_eq_ok.2 ⟨s, .refl, hrun⟩, end_unique .refl hrest ?_ ht⟩
      rw [isFinished_core, isFinished, hv]
      exact hfv
    | continues v hv hcont hstop =>
      obtain rfl := hstop rfl hs
      obtain ⟨r, hr, hcore⟩ := ih (hb ▸ hs) ⟨v, hv, hcont.finished.trans hf⟩ rfl
      obtain ⟨l, hl, hlast⟩ := Loop.runOr_eq_ok.1 hr
      exact ⟨r, Loop.runOr_eq_ok.2 ⟨l, .head hrun hl, hlast⟩, hcore⟩

theorem state_of_chain (hw : s.walker = some w) (hf : w.finished = false)
    (h : Relation.ReflTransGen Next (core f s) t) (ht : t.isFinished = true) :
    ∃ st, s.parser.state w.state = .ok st := by
  obtain rfl | ⟨c, ⟨v, hv, -, hc⟩, -⟩ := h.cases_head
  · rw [isFinished_core, isFinished, hw] at ht
    exact absurd (hf.symm.trans ht) Bool.noConfusion
  · obtain rfl : w = v := Option.some.inj (hw.symm.trans hv)
    simp only [map_eq_ok, step, bind_eq_ok] at hc
    obtain ⟨_, ⟨st, hst, -⟩, -⟩ := hc
    exact ⟨st, hst⟩

theorem start_plain {rule : Nat} {input : String} (hb : s.breakpoints = {})
    (he : s.stopOnEntry = false) (h : s.enter rule input = .ok (w, u))
    (hchain : Relation.ReflTransGen Next (core [] u) t) (ht : t.isFinished = true) :
    ∃ r, s.start rule input = .ok r ∧ core [] r = t := by
  obtain ⟨hw, hf, hstack⟩ := unfinished_of_enter h
  obtain ⟨r, hr, hcore⟩ := plainRun_chain (states_of_enter hb h) ⟨w, hw, hf⟩ hchain ht
  refine ⟨r, ?_, hcore⟩
  obtain ⟨st, hst⟩ := state_of_chain hw hf hchain ht
  have hentry : u.stopOnEntry = false := by
    obtain ⟨-, tokens, diagnostics, -, -, rfl⟩ := enter_eq_ok h
    exact he
  rw [start, bind_eq_ok]
  refine ⟨(w, u), h, ?_⟩
  dsimp only
  rw [hentry, if_neg Bool.false_ne_true]
  unfold resume
  rw [hw]
  dsimp only
  rw [if_neg (hf ▸ Bool.false_ne_true), hstack, bind_eq_ok]
  exact ⟨st, liftM_run_eq_ok.2 hst, hr⟩

def begun (s : Session) (rule : Nat) (input : String) : Session :=
  ((s.enter rule input).toOption.map (·.2)).getD s

/-- Two histories of one start that both come to the end of the parse come to the same tree,
failures, place in the input and errors, and so does a run through it without any breakpoint. -/
theorem outcome_of_histories {s : Session} {rule : Nat} {input : String} {b₁ b₂ : Breakpoints}
    {e₁ e₂ : Bool} {h₁ h₂ : List Request} {r₁ r₂ : Record}
    (hr₁ : { s with breakpoints := b₁, stopOnEntry := e₁ }.history rule input h₁ = .ok r₁)
    (hr₂ : { s with breakpoints := b₂, stopOnEntry := e₂ }.history rule input h₂ = .ok r₂)
    (hf₁ : r₁.session.isFinished = true) (hf₂ : r₂.session.isFinished = true) :
    r₁.outcome = r₂.outcome ∧
      ∃ p, { s with breakpoints := {}, stopOnEntry := false }.history rule input [] = .ok p ∧
        p.session.isFinished = true ∧ p.outcome = r₁.outcome := by
  obtain ⟨w, u₁, hu₁, hchain₁⟩ := history_chain hr₁
  obtain ⟨w₂, u₂, hu₂, hchain₂⟩ := history_chain hr₂
  obtain ⟨u, hu, hcore₁⟩ := enter_core {} false hu₁
  obtain ⟨u', hu', hcore₂⟩ := enter_core {} false hu₂
  obtain ⟨-, rfl⟩ := Prod.mk.inj (Except.ok.inj (hu'.symm.trans hu))
  rw [← hcore₁] at hchain₁
  rw [← hcore₂] at hchain₂
  have hsame : r₁.core = r₂.core := end_unique hchain₁ hchain₂ hf₁ hf₂
  obtain ⟨p, hp, hcore⟩ := start_plain rfl rfl hu hchain₁ hf₁
  refine ⟨by rw [outcome_core, hsame, ← outcome_core], { session := p }, ?_, ?_, ?_⟩
  · rw [history, bind_eq_ok]
    exact ⟨p, hp, rfl⟩
  · rw [← isFinished_core (f := []), hcore]
    exact hf₁
  · rw [outcome_core, outcome_core r₁, Record.core, hcore]

/-- A rule that takes one token of type 1, which the letter `a` is. -/
def letterSession : Session where
  parser := {
    kind := .parser, maxToken := 1, ruleStarts := #[0], ruleStops := #[1]
    states := #[
      { number := 0, rule := some 0, kind := .ruleStart (some 1) false false, edges := [.plain 2] },
      { number := 1, rule := some 0, kind := .ruleStop },
      { number := 2, rule := some 0, kind := .basic, edges := [.atom 1 1] }] }
  lexer := {
    kind := .lexer, maxToken := 1, ruleStarts := #[1], ruleStops := #[2], ruleTokens := #[1]
    modes := #[0]
    states := #[
      { number := 0, rule := none, kind := .tokensStart {}, edges := [.plain 1] },
      { number := 1, rule := some 0, kind := .ruleStart (some 2) false false, edges := [.plain 3] },
      { number := 2, rule := some 0, kind := .ruleStop },
      { number := 3, rule := some 0, kind := .basic, edges := [.atom 2 97] }] }
  grammar := default
  outline := default

/-- A run past the rule that the parse stands on, with a breakpoint asked for, against a run from
the start, on an input that ends too early. -/
theorem outcome_of_stepOver :
    ∃ r₁ r₂, { letterSession with stopOnEntry := true }.history 0 ""
        [.addBreakpoint "" 0, .resume .stepOver] = .ok r₁ ∧
      letterSession.history 0 "" [] = .ok r₂ ∧ r₂.errors.length = 1 ∧ r₁.outcome = r₂.outcome := by
  let entered : Session :=
    ({ letterSession with stopOnEntry := true }.begun 0 "").report (.stepped 0)
  obtain ⟨s₁, hs₁, hf₁⟩ : ∃ r, Loop.runOr (.fault .unfinished)
      (runStep { mode := .stepOver, depth := 0, skips := true }) (entered.addBreakpoint "" 0).2 =
        .ok r ∧
        r.isFinished = true := Loop.runOr_of_unroll 9 (by decide +kernel)
  obtain ⟨s₂, hs₂, hp₂⟩ : ∃ r, Loop.runOr (.fault .unfinished) (runStep plainRun)
      (letterSession.begun 0 "") = .ok r ∧
        (r.isFinished && (Record.errors { session := r }).length == 1) = true :=
    Loop.runOr_of_unroll 9 (by decide +kernel)
  obtain ⟨hf₂, herrors⟩ := (Bool.and_eq_true _ _).mp hp₂
  have hr₁ : { letterSession with stopOnEntry := true }.history 0 ""
      [.addBreakpoint "" 0, .resume .stepOver] = .ok ⟨[], s₁⟩ := by
    show (Loop.runOr (.fault .unfinished) (runStep { mode := .stepOver, depth := 0, skips := true })
      (entered.addBreakpoint "" 0).2 >>= fun s => pure (Record.mk [] s)) >>= pure = _
    rw [hs₁]
    rfl
  have hr₂ : letterSession.history 0 "" [] = .ok ⟨[], s₂⟩ := by
    show Loop.runOr (.fault .unfinished) (runStep plainRun) (letterSession.begun 0 "") >>= _ = _
    rw [hs₂]
    rfl
  exact ⟨_, _, hr₁, hr₂, by simpa using herrors, (outcome_of_histories hr₁ hr₂ hf₁ hf₂).1⟩

end GrammarWalk.Session
