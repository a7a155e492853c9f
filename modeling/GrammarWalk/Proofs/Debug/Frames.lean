import GrammarWalk.Proofs.Debug.CallStack
import GrammarWalk.Proofs.Debug.Invocations
import GrammarWalk.Proofs.Debug.Returns

/-! Runs that stop at a return only: a step out, and a step over a rule that is about to be entered.
The frames that a session has at the start of such a run stay below those that the run adds, up to
the return at which it stops. In sealed rules that is the return from the rule that was to be gone
past. -/

namespace GrammarWalk

def Frame.place (f : Frame) : Nat × String × Option String := (f.rule, f.name, f.source)

def Network.CallsEnter (net : Network) : Prop :=
  ∀ (q : Nat) (st : State) (k : Call), net.states[q]? = some st → .call k ∈ st.edges →
    net.startsRule k.start = true

theorem Network.Partitioned.callsEnter {net : Network} (h : net.Partitioned) (hw : net.Wired) :
    net.CallsEnter := by
  intro q st k hst hk
  obtain ⟨-, hstart⟩ := h.call st (Array.mem_toList_iff.2 (Array.mem_of_getElem? hst)) _ hk k rfl
  obtain ⟨sst, hsst, his⟩ := hw.start hstart
  rwa [startsRule, hsst]

namespace Walker

variable {w w' : Walker} {st : State} {k : Call}

theorem visit_call {r : Except Failure Walker} (hst : w.net.states[w.state]? = some st)
    (hedges : st.edges = [.call k]) (h : w.visit = .ok r) :
    w.callTaken? = some k ∧ ∃ w', r = .ok w' ∧ w'.state = k.start := by
  have hchoose : w.chooseEdge st = .ok (.ok 1) := by
    rw [chooseEdge, hedges]
    rfl
  rw [callTaken?_eq hst hchoose, hedges]
  refine ⟨rfl, ?_⟩
  rw [visit, bind_eq_ok] at h
  obtain ⟨st', hst', h⟩ := h
  obtain rfl := Option.some.inj (hst.symm.trans (Network.state_eq_ok.1 hst'))
  rw [hchoose, hedges] at h
  obtain ⟨taken, htaken, h⟩ : ∃ taken, w.takeEdge st (.call k) = .ok taken ∧ _ := bind_eq_ok.1 h
  unfold takeEdge at htaken
  dsimp only at htaken
  split at htaken <;>
  · simp only [bind_eq_ok, pure_eq_ok] at htaken
    obtain ⟨v, -, rfl⟩ := htaken
    exact ⟨_, (pure_eq_ok.1 h).symm, rfl⟩

theorem Move.call (hst : w.net.states[w.state]? = some st) (hns : st.isRuleStop = false)
    (hedges : st.edges = [.call k]) (h : w.Move w') :
    w.visit = .ok (.ok w') ∧ w.callTaken? = some k ∧ w'.state = k.start := by
  have same {st' : State} (hst' : w.net.states[w.state]? = some st') : st' = st :=
    Option.some.inj (hst'.symm.trans hst)
  cases h with
  | visit _ _ hvisit =>
    obtain ⟨htaken, v, hv, hstate⟩ := visit_call hst hedges hvisit
    exact ⟨hvisit, htaken, Except.ok.inj hv ▸ hstate⟩
  | fail _ _ hvisit =>
    obtain ⟨-, v, hv, -⟩ := visit_call hst hedges hvisit
    cases hv
  | leave hst' hstop => exact absurd (hns.symm.trans (same hst' ▸ hstop)) Bool.noConfusion
  | finish hst' hstop => exact absurd (hns.symm.trans (same hst' ▸ hstop)) Bool.noConfusion

end Walker

namespace Session

variable {net : Network} {s t : Session} {w w' : Walker} {run : Run} {stop : Bool}

/-- Of each frame the rule, the name and the file, innermost first. -/
def places (s : Session) : List (Nat × String × Option String) := s.callStack.frames.map Frame.place

/-- The `n` outermost frames of `s` are left in `t`, but for how far they have come in the
outline. -/
def KeepsOuter (s t : Session) (n : Nat) : Prop :=
  t.callStack.depth = n ∧ t.callStack.toList.map Frame.place =
    (s.callStack.toList.take n).map Frame.place

/-- The parse stands on the start of a rule, or in front of the call of one. -/
def AboutToEnter (s : Session) : Prop :=
  ∃ w ∈ s.walker, ∃ st ∈ s.parser.states[w.state]?, st.isRuleStop = false ∧ entersRule st = true

instance (s : Session) : Decidable s.AboutToEnter := inferInstanceAs (Decidable (∃ _ ∈ _, _))

theorem length_places (s : Session) : s.places.length = s.callStack.depth := List.length_map _

theorem keepsOuter_of_suffix (h : t.places <:+ s.places) : s.KeepsOuter t t.callStack.depth := by
  obtain ⟨inner, hinner⟩ := h
  have hplaces : s.callStack.toList.map Frame.place = t.callStack.toList.map Frame.place ++
      inner.reverse := by
    rw [CallStack.toList, CallStack.toList, List.map_reverse, List.map_reverse,
      ← List.reverse_append]
    exact congrArg List.reverse hinner.symm
  refine ⟨rfl, ?_⟩
  rw [List.map_take, hplaces, List.take_left' (by simp [CallStack.toList, CallStack.depth])]

section steps

def Run.StopsAtReturns (run : Run) : Prop :=
  run.mode = .stepOut ∨ run.mode = .stepOver ∧ run.skips = true

/-- A return that leaves so many frames is the last step of the run. -/
def Run.endsAt (run : Run) (depth : Nat) : Bool :=
  run.mode == .stepOut && depth < run.depth || run.skips && depth == run.depth

/-- What a step out of state `st` that gives the answer `stop` does to the frames. -/
inductive Reframes (s : Session) (run : Run) (st : State) (stop : Bool) (t : Session) : Prop
  | enters {place : Nat × String × Option String} : st.isRuleStart = true → stop = false →
      t.places = place :: s.places → Reframes s run st stop t
  | passes : st.isRuleStart = false → st.isRuleStop = false → stop = false → t.places = s.places →
      Reframes s run st stop t
  | returns : st.isRuleStop = true → stop = run.endsAt t.callStack.depth →
      t.places = s.places.tail →
      Reframes s run st stop t
  | finishes : st.isRuleStop = true → stop = true → t.isFinished = true → Reframes s run st stop t

theorem places_moveAlong {st : State} (h : s.moveAlong st = .ok t) : t.places = s.places := by
  obtain rfl | ⟨f, rest, next, hframes, rfl⟩ := moveAlong_cases h
  · rfl
  · rw [places, places, hframes]
    rfl

theorem places_takeEdge (h : s.takeEdge w = .ok t) : t.places = s.places := by
  rw [takeEdge, bind_eq_ok] at h
  obtain ⟨r, -, h⟩ := h
  split at h
  · exact pure_eq_ok.1 h ▸ rfl
  · simp only [bind_eq_ok, pure_eq_ok] at h
    obtain ⟨v, -, rfl⟩ := h
    rfl

theorem callStack_stopIf {e : Event} {b : Bool} (h : s.stopIf b e = (stop, t)) :
    t.callStack = s.callStack := by
  obtain ⟨-, rfl⟩ := Prod.mk.inj h
  cases b <;> rfl

theorem leaveRule_reframes {st : State} {p : Nat} (hstop : st.isRuleStop = true)
    (h : s.leaveRule run w p = .ok (stop, t)) : Reframes s run st stop t := by
  rw [leaveRule, bind_eq_ok] at h
  obtain ⟨root, -, h⟩ := h
  split at h
  · simp only [bind_eq_ok, pure_eq_ok] at h
    obtain ⟨v, hv, h⟩ := h
    obtain ⟨rfl, hw, -⟩ := stopIf_keeps h
    refine .finishes hstop rfl ?_
    rw [isFinished, hw]
    exact Walker.finished_finishRoot hv
  · simp only [bind_eq_ok, pure_eq_ok] at h
    obtain ⟨v, hv, h⟩ := h
    have hstack := callStack_stopIf h
    obtain ⟨rfl, -, -⟩ := stopIf_keeps h
    refine .returns hstop ?_ ?_
    · rw [hstack]
      rfl
    · rw [places, hstack]
      exact List.map_tail

theorem passState_reframes {st : State} {p : Nat} (hrun : run.StopsAtReturns)
    (hb : s.breakpoints.states = []) (hns : st.isRuleStop = false)
    (h : s.passState run w st p = .ok (stop, t)) : Reframes s run st stop t := by
  rw [passState, bind_eq_ok] at h
  obtain ⟨v, hv, h⟩ := h
  have hhit : v.breakpoints.isHit p = false := by
    have hframe : (if st.isRuleStart then s.pushFrame (st.rule.getD 0) else s).breakpoints =
        s.breakpoints := by
      split <;> rfl
    rw [Breakpoints.isHit, (takeEdge_keeps hv).2, hframe, hb]
    rfl
  have hgoes : (run.mode == .stepIn || run.mode == .stepOver && !run.skips) = false := by
    rcases hrun with hout | ⟨hover, hskips⟩
    · rw [hout]
      rfl
    · rw [hover, hskips]
      rfl
  rw [hhit, if_neg Bool.false_ne_true, hgoes] at h
  obtain ⟨rfl, rfl⟩ := Prod.mk.inj (pure_eq_ok.1 h)
  have hplaces := places_takeEdge hv
  cases hstart : st.isRuleStart with
  | true =>
    rw [hstart] at hplaces
    exact .enters hstart rfl hplaces
  | false =>
    rw [hstart] at hplaces
    exact .passes hstart hns rfl hplaces

/-- A step enters a rule with a frame more, leaves a rule with a frame less, or keeps the frames. -/
theorem step_reframes (hrun : run.StopsAtReturns) (hb : s.breakpoints.states = [])
    (h : s.step run w = .ok (stop, t)) :
    ∃ st, s.parser.states[w.state]? = some st ∧ Reframes s run st stop t := by
  simp only [step, bind_eq_ok, Network.state_eq_ok] at h
  obtain ⟨st, hst, v, hv, h⟩ := h
  refine ⟨st, hst, ?_⟩
  have hreframes : Reframes v run st stop t := by
    split at h
    · rename_i hstop
      exact leaveRule_reframes hstop h
    · rename_i hns
      exact passState_reframes hrun ((moveAlong_keeps hv).2 ▸ hb) (by simpa using hns) h
  have hplaces := places_moveAlong hv
  cases hreframes with
  | enters hstart hgoes hframes => exact .enters hstart hgoes (hplaces ▸ hframes)
  | passes hstart hns hgoes hframes => exact .passes hstart hns hgoes (hplaces ▸ hframes)
  | returns hstop hends hframes => exact .returns hstop hends (hplaces ▸ hframes)
  | finishes hstop hlast hdone => exact .finishes hstop hlast hdone

/-- There are frames above those of `base`. -/
def Above (base : List (Nat × String × Option String)) (s : Session) : Prop :=
  ∃ inner ≠ [], s.places = inner ++ base

/-- A run that ends when the frames above `base` are gone goes on as long as there are some. -/
theorem Reframes.above {st : State} {base : List (Nat × String × Option String)}
    (h : Reframes s run st stop t)
    (hends : ∀ depth, base.length ≤ depth → (run.endsAt depth = true ↔ depth = base.length))
    (hs : s.Above base) :
    (stop = false → t.Above base) ∧ (stop = true → t.isFinished = true ∨ t.places = base) := by
  obtain ⟨inner, hne, hinner⟩ := hs
  cases h with
  | @enters place _ hgoes hframes =>
    refine ⟨fun _ => ⟨place :: inner, List.cons_ne_nil _ _, ?_⟩,
      fun hstop => absurd (hgoes.symm.trans hstop) nofun⟩
    rw [hframes, hinner]
    rfl
  | passes _ _ hgoes hframes =>
    exact ⟨fun _ => ⟨inner, hne, hframes.trans hinner⟩,
      fun hstop => absurd (hgoes.symm.trans hstop) nofun⟩
  | returns _ hstop hframes =>
    rw [hinner, List.tail_append_of_ne_nil hne] at hframes
    have hdepth : t.callStack.depth = inner.tail.length + base.length := by
      rw [← length_places, hframes, List.length_append]
    have hlast := hends t.callStack.depth (by omega)
    rw [← hstop, hdepth] at hlast
    refine ⟨fun hgoes => ⟨inner.tail, fun hnil => ?_, hframes⟩, fun hstop => .inr ?_⟩
    · rw [hgoes, hnil] at hlast
      exact Bool.noConfusion (hlast.2 (Nat.zero_add _))
    · obtain hnil : inner.tail = [] :=
        List.eq_nil_of_length_eq_zero (by have := hlast.1 hstop; omega)
      rw [hframes, hnil]
      rfl
  | finishes _ hstop hdone =>
    exact ⟨fun hgoes => absurd (hstop.symm.trans hgoes) nofun, fun _ => .inl hdone⟩

end steps

section runs

variable {st : State} {depth : Nat}

theorem isFinished_of_walker (hw : s.walker = some w) (hf : w.finished = true) :
    s.isFinished = true := by
  rw [isFinished, hw]
  exact hf

theorem endsAt_stepOut :
    (s.runFrom .stepOut st).endsAt depth = true ↔ depth < s.callStack.depth := by
  rw [Run.endsAt, Bool.or_eq_true]
  exact ⟨fun h => h.elim of_decide_eq_true nofun, fun h => .inl (decide_eq_true h)⟩

theorem endsAt_stepOver (h : entersRule st = true) :
    (s.runFrom .stepOver st).endsAt depth = true ↔ depth = s.callStack.depth := by
  simp [Run.endsAt, runFrom, h]

/-- A step out leaves the innermost frame and none of those below it, or comes to the end. -/
theorem resume_stepOut (hb : s.breakpoints.states = []) (hd : 1 ≤ s.callStack.depth)
    (h : s.resume .stepOut = .ok t) :
    t.isFinished = true ∨ s.KeepsOuter t (s.callStack.depth - 1) := by
  obtain ⟨w, hw, ⟨hf, rfl⟩ | ⟨hf, st, -, hruns⟩⟩ := resume_cases h
  · exact .inl (isFinished_of_walker hw hf)
  have hrun : (s.runFrom .stepOut st).StopsAtReturns := .inl rfl
  have hbase : s.places.tail.length = s.callStack.depth - 1 := by
    rw [List.length_tail, length_places]
  have hends (depth : Nat) (hdepth : s.places.tail.length ≤ depth) :
      (s.runFrom .stepOut st).endsAt depth = true ↔ depth = s.places.tail.length := by
    rw [endsAt_stepOut]
    omega
  have hframe : s.Above s.places.tail := by
    cases hplaces : s.places with
    | nil =>
      rw [← length_places, hplaces] at hd
      cases hd
    | cons place rest => exact ⟨[place], List.cons_ne_nil _ _, hplaces⟩
  obtain ⟨u, v, ⟨hbu, habove⟩, -, -, hlast⟩ :=
    run_keeps (I := fun a => a.breakpoints.states = [] ∧ a.Above s.places.tail)
      (fun {a b v} ha _ _ hstep => by
        obtain ⟨_, -, hreframes⟩ := step_reframes hrun ha.1 hstep
        exact ⟨(step_cases hstep).2 ▸ ha.1, (hreframes.above hends ha.2).1 rfl⟩)
      ⟨hb, hframe⟩ hw hf hruns
  obtain ⟨_, -, hreframes⟩ := step_reframes hrun hbu hlast
  refine ((hreframes.above hends habove).2 rfl).imp_right fun hplaces => ?_
  have hdepth : t.callStack.depth = s.callStack.depth - 1 := by rw [← length_places, hplaces, hbase]
  exact hdepth ▸ keepsOuter_of_suffix (hplaces ▸ List.tail_suffix _)

theorem call_of_entersRule (h : entersRule st = true) (hstart : st.isRuleStart = false) :
    ∃ k, st.edges = [.call k] := by
  rw [entersRule, hstart, Bool.false_or] at h
  split at h
  · exact ⟨_, ‹_›⟩
  · cases h

theorem AboutToEnter.state (hs : s.AboutToEnter) (hw : s.walker = some w)
    (hst : s.parser.states[w.state]? = some st) : st.isRuleStop = false ∧ entersRule st = true := by
  obtain ⟨_, hw', _, hst', hcan⟩ := hs
  obtain rfl := Option.some.inj (hw.symm.trans hw')
  obtain rfl := Option.some.inj (hst.symm.trans hst')
  exact hcan

/-- One step on, the rule has its frame, or the call of the rule is taken and the parse stands on
its start. -/
theorem AboutToEnter.step (hs : s.AboutToEnter) (hcalls : w.net.CallsEnter)
    (hparser : s.parser = w.net) (hw : s.walker = some w) (hrun : run.StopsAtReturns)
    (hb : s.breakpoints.states = []) (hstep : s.step run w = .ok (stop, t)) :
    stop = false ∧ (t.Above s.places ∨ t.AboutToEnter ∧ t.places = s.places) := by
  obtain ⟨st, hst, hreframes⟩ := step_reframes hrun hb hstep
  obtain ⟨hns, henters⟩ := hs.state hw hst
  cases hreframes with
  | @enters place _ hgoes hframes => exact ⟨hgoes, .inl ⟨[place], List.cons_ne_nil _ _, hframes⟩⟩
  | passes hstart _ hgoes hframes =>
    refine ⟨hgoes, .inr ⟨?_, hframes⟩⟩
    obtain ⟨k, hedges⟩ := call_of_entersRule henters hstart
    rw [hparser] at hst
    obtain ⟨hparser', v, hv, hmove⟩ := step_move hparser hstep
    obtain ⟨-, -, hstate⟩ := hmove.call hst hns hedges
    obtain ⟨sst, hsst, his⟩ :=
      Option.any_eq_true _ _ |>.1 (hcalls _ _ _ hst (hedges ▸ List.mem_singleton_self _))
    rw [← hstate, ← hparser, ← hparser'] at hsst
    exact ⟨v, hv, sst, hsst,
      Network.isRuleStop_of_isRuleStart his, by rw [entersRule, his, Bool.true_or]⟩
  | returns hstop => exact absurd (hns.symm.trans hstop) Bool.noConfusion
  | finishes hstop => exact absurd (hns.symm.trans hstop) Bool.noConfusion

/-- A run that ends when the frames above `base` are gone goes on from the entry of a rule up to its
return. -/
theorem step_above (hcalls : net.CallsEnter) (hrun : run.StopsAtReturns)
    {base : List (Nat × String × Option String)}
    (hends : ∀ depth, base.length ≤ depth → (run.endsAt depth = true ↔ depth = base.length))
    (hs : s.Has net fun _ => True) (hb : s.breakpoints.states = []) (hw : s.walker = some w)
    (habove : s.Above base ∨ s.AboutToEnter ∧ s.places = base)
    (hstep : s.step run w = .ok (stop, t)) :
    (stop = false → t.Above base ∨ t.AboutToEnter ∧ t.places = base) ∧
      (stop = true → t.isFinished = true ∨ t.places = base) := by
  obtain habove | ⟨henter, rfl⟩ := habove
  · obtain ⟨_, -, hreframes⟩ := step_reframes hrun hb hstep
    obtain ⟨hgoes, hstops⟩ := hreframes.above hends habove
    exact ⟨fun hgo => .inl (hgoes hgo), hstops⟩
  · obtain ⟨rfl, -⟩ := hs.walker w hw
    obtain ⟨rfl, hcases⟩ := henter.step hcalls hs.parser hw hrun hb hstep
    exact ⟨fun _ => hcases, nofun⟩

/-- A step over a rule that is about to be entered keeps the frames, or comes to the end. -/
theorem resume_stepOver (hcalls : net.CallsEnter) (hs : s.Has net fun _ => True)
    (hb : s.breakpoints.states = []) (henter : s.AboutToEnter) (h : s.resume .stepOver = .ok t) :
    t.isFinished = true ∨ s.KeepsOuter t s.callStack.depth := by
  obtain ⟨w, hw, ⟨hf, rfl⟩ | ⟨hf, st, hst, hruns⟩⟩ := resume_cases h
  · exact .inl (isFinished_of_walker hw hf)
  have henters := (henter.state hw hst).2
  have hrun : (s.runFrom .stepOver st).StopsAtReturns := .inr ⟨rfl, by rw [runFrom, henters]; rfl⟩
  have hends (depth : Nat) (_ : s.places.length ≤ depth) :
      (s.runFrom .stepOver st).endsAt depth = true ↔ depth = s.places.length := by
    rw [endsAt_stepOver henters, length_places]
  obtain ⟨u, v, ⟨hu, hbu, habove⟩, hv, -, hlast⟩ :=
    run_keeps (I := fun a => (a.Has net fun _ => True) ∧ a.breakpoints.states = [] ∧
      (a.Above s.places ∨ a.AboutToEnter ∧ a.places = s.places))
    (fun {a b v} hI hv _ hstep => by
      obtain ⟨ha, hba, habove⟩ := hI
      obtain ⟨hnet, -⟩ := ha.walker v hv
      obtain ⟨hparser, v', hv', hmove⟩ := step_move (ha.parser.trans hnet.symm) hstep
      refine ⟨⟨hparser.trans ha.parser, fun x hx => ?_⟩, (step_cases hstep).2 ▸ hba,
        (step_above hcalls hrun hends ha hba hv habove hstep).1 rfl⟩
      exact ⟨Option.some.inj (hv'.symm.trans hx) ▸ hmove.net.trans hnet, trivial⟩)
    ⟨hs, hb, .inr ⟨henter, rfl⟩⟩ hw hf hruns
  refine ((step_above hcalls hrun hends hu hbu hv habove hlast).2 rfl).imp_right fun hplaces => ?_
  have hdepth : t.callStack.depth = s.callStack.depth := by
    rw [← length_places, hplaces, length_places]
  exact hdepth ▸ keepsOuter_of_suffix (hplaces ▸ List.suffix_refl _)

end runs

end Session

namespace Walker

variable {w w' : Walker} {st : State} {site : Option Nat} {c : Context} {l outer : List Context}

/-- The open nodes around the rule that the parse is about to enter. -/
def outside (w : Walker) (c : Context) (l : List Context) : List Context :=
  if w.net.startsRule w.state then l else c :: l

def callSite (w : Walker) (c : Context) : Option Nat :=
  if w.net.startsRule w.state then c.invoking else some w.state

theorem entered_eq : w.entered c l = (w.outside c l).map (·.rule) := by
  rw [entered, outside]
  split <;> rfl

/-- The parse is about to call a rule from state `site`, or inside of the rule that was called from
it, and the nodes `outer` are open around that rule. -/
inductive Passing (w : Walker) (site : Option Nat) (outer : List Context) : Prop
  | ahead {st : State} {k : Call} {c : Context} {l : List Context} :
      w.net.states[w.state]? = some st →
      st.isRuleStop = false → st.edges = [.call k] → w.Aligned c l → c :: l = outer →
      some w.state = site →
      Passing w site outer
  | inside {c e : Context} {l inner : List Context} : w.Aligned c l → c :: l = inner ++ e :: outer →
      e.invoking = site → Passing w site outer

theorem passing_of_aligned (ha : w.Aligned c outer) (hsite : c.invoking = site) :
    w.Passing site outer :=
  .inside ha (List.nil_append _).symm hsite

theorem Passing.visit (h : w.Passing site outer) (hw : w.net.Wired) (henc : w.net.Enclosed)
    (hmarks : w.net.MarksPrecedence) (hst : w.net.states[w.state]? = some st)
    (hns : st.isRuleStop = false) (hvisit : w.visit = .ok (.ok w')) : w'.Passing site outer := by
  cases h with
  | @ahead _ k c l hst' _ hedges ha houter hsite =>
    obtain rfl := Option.some.inj (hst.symm.trans hst')
    obtain ⟨c', l', ha', -, hstep⟩ := ha.visit hw henc hmarks hst hns hvisit
    rw [(visit_call hst hedges hvisit).1] at hstep
    cases hstep with
    | called _ hinvoking => exact passing_of_aligned (houter ▸ ha') (hinvoking.trans hsite)
  | @inside c e l inner ha hsplit hsite =>
    obtain ⟨c', l', ha', -, hstep⟩ := ha.visit hw henc hmarks hst hns hvisit
    generalize w.callTaken? = taken at hstep
    cases hstep with
    | within hrule hinvoking =>
      cases inner with
      | nil =>
        obtain ⟨rfl, rfl⟩ := List.cons.inj hsplit
        exact passing_of_aligned ha' (hinvoking.trans hsite)
      | cons d inner =>
        obtain ⟨rfl, rfl⟩ := List.cons.inj hsplit
        exact .inside ha' (List.cons_append ..).symm hsite
    | called =>
      exact .inside ha' ((congrArg (c' :: ·) hsplit).trans (List.cons_append ..).symm) hsite

theorem Passing.fail (h : w.Passing site outer) (hw : w.net.Wired) {f : Failure}
    (hvisit : w.visit = .ok (.error f)) (hfail : w.fail f = .ok w') : w'.Passing site outer := by
  cases h with
  | ahead hst _ hedges =>
    obtain ⟨-, v, hv, -⟩ := visit_call hst hedges hvisit
    cases hv
  | inside ha hsplit hsite => exact .inside (ha.fail hw hvisit hfail).1 hsplit hsite

/-- A return from the rule itself leaves the nodes around it open and goes on behind its call; any
other return stays inside. -/
theorem Passing.leave (h : w.Passing site outer) (ha : w.Aligned c l) (henc : w.net.Enclosed)
    (hst : w.net.states[w.state]? = some st) (hstop : st.isRuleStop = true)
    (hroot : w.atRoot = .ok false) (hleave : w.visitStop = .ok w') :
    (l.length = outer.length → w'.tree.Open w'.context outer ∧
      site.bind w.net.goesOn? = some w'.state) ∧
      (l.length ≠ outer.length → w'.Passing site outer) := by
  cases h with
  | ahead hst' hns =>
    obtain rfl := Option.some.inj (hst.symm.trans hst')
    exact absurd (hns.symm.trans hstop) Bool.noConfusion
  | @inside c₁ e l₁ inner ha₁ hsplit hsite =>
    obtain ⟨rfl, rfl⟩ := List.cons.inj (ha.tree.unique ha₁.tree)
    obtain ⟨d, l', rfl, hd, -⟩ := ha.visitStop henc hst hroot hleave
    cases inner with
    | nil =>
      obtain ⟨rfl, rfl⟩ := List.cons.inj hsplit
      refine ⟨fun _ => ⟨hd.tree, ?_⟩, fun hne => absurd rfl hne⟩
      obtain ⟨r, v, d', l'', s, cst, k, first, -, hcall, -, -, -, -, hgoes, rfl⟩ :=
        ha.comesBack hst hroot hleave
      rw [← hsite, hcall.invoking, Option.bind_some, Network.goesOn?, hcall.state,
        Option.bind_some, hgoes]
    | cons c inner =>
      obtain ⟨rfl, hrest⟩ := List.cons.inj hsplit
      refine ⟨fun hlen => ?_, fun _ => .inside hd hrest hsite⟩
      have := congrArg List.length hrest
      simp only [List.append_eq, List.length_append, List.length_cons] at this hlen
      omega

end Walker

namespace Session

variable {net : Network} {s t : Session} {w w' : Walker} {run : Run} {stop : Bool} {st : State}
  {site : Option Nat}
  {outer : List Context} {c : Context} {l : List Context}

/-- Between the sessions the rule that the first was about to enter has returned: the nodes around
it are open, and the parse stands behind the call. -/
def Returned (s t : Session) : Prop :=
  ∃ w ∈ s.walker, ∃ w' ∈ t.walker, ∃ c l, w.tree.Open w.context (c :: l) ∧
    w'.tree.Open w'.context (w.outside c l) ∧ (w.callSite c).bind w.net.goesOn? = some w'.state

theorem Reframes.goesOn (h : Reframes s run st stop t) (hns : st.isRuleStop = false) :
    stop = false := by
  cases h with
  | enters _ hgoes => exact hgoes
  | passes _ _ hgoes => exact hgoes
  | returns hstop => exact absurd (hns.symm.trans hstop) Bool.noConfusion
  | finishes hstop => exact absurd (hns.symm.trans hstop) Bool.noConfusion

theorem AboutToEnter.passing (hs : s.AboutToEnter) (hparser : s.parser = w.net)
    (hw : s.walker = some w) (ha : w.Aligned c l) : w.Passing (w.callSite c) (w.outside c l) := by
  obtain ⟨_, hw', st, hst, hns, henters⟩ := hs
  obtain rfl := Option.some.inj (hw.symm.trans hw')
  rw [hparser, Option.mem_def] at hst
  have hstarts : w.net.startsRule w.state = st.isRuleStart := by
    rw [Network.startsRule, hst, Option.any_some]
  rw [Walker.callSite, Walker.outside, hstarts]
  cases hstart : st.isRuleStart with
  | true => exact Walker.passing_of_aligned ha rfl
  | false =>
    obtain ⟨k, hedges⟩ := call_of_entersRule henters hstart
    exact .ahead hst hns hedges ha rfl rfl

/-- A run that ends with the frames of the nodes around the rule stays inside of it, up to its
return. -/
theorem step_passing (hwired : net.Wired) (hseal : net.Sealed) (hmarks : net.MarksPrecedence)
    (hs : Tracks net s) (hrun : run.StopsAtReturns)
    (hends : ∀ depth, run.endsAt depth = true ↔ depth = outer.length)
    (hb : s.breakpoints.states = []) (hw : s.walker = some w) (hf : w.finished = false)
    (hin : w.Passing site outer) (hstep : s.step run w = .ok (stop, t)) :
    ∃ w', t.walker = some w' ∧ (stop = false → w'.Passing site outer) ∧
      (stop = true → w'.finished = true ∨
        w'.tree.Open w'.context outer ∧ site.bind net.goesOn? = some w'.state) := by
  obtain rfl := hs.net w hw
  obtain ⟨-, w', hw', hmove⟩ := step_move hs.parser hstep
  obtain ⟨st, hst, hreframes⟩ := step_reframes hrun hb hstep
  rw [hs.parser] at hst
  refine ⟨w', hw', ?_⟩
  cases hmove with
  | visit hst' hns hvisit =>
    obtain rfl := Option.some.inj (hst.symm.trans hst')
    obtain rfl := hreframes.goesOn hns
    exact ⟨fun _ => hin.visit hwired hseal.enclosed hmarks hst hns hvisit, nofun⟩
  | fail hst' hns hvisit hfail =>
    obtain rfl := Option.some.inj (hst.symm.trans hst')
    obtain rfl := hreframes.goesOn hns
    exact ⟨fun _ => hin.fail hwired hvisit hfail, nofun⟩
  | leave hst' hstop hroot hleave =>
    obtain rfl := Option.some.inj (hst.symm.trans hst')
    obtain ⟨c, l, ha, hframes⟩ := hs.running w hw hf
    obtain ⟨hback, hstays⟩ := hin.leave ha hseal.enclosed hst hstop hroot hleave
    cases hreframes with
    | enters hstart =>
      exact absurd (hstop.symm.trans (Network.isRuleStop_of_isRuleStart hstart)) Bool.noConfusion
    | passes _ hns => exact absurd (hns.symm.trans hstop) Bool.noConfusion
    | returns _ hlast hplaces =>
      have hdepth : t.callStack.depth = l.length := by
        rw [Walker.entered_of_not_startsRule (Network.startsRule_of_isRuleStop hst hstop)]
          at hframes
        rw [← length_places, hplaces, List.length_tail, places, List.length_map,
          ← List.length_map (·.rule), hframes]
        simp
      have hiff := hends l.length
      rw [← hdepth, ← hlast, hdepth] at hiff
      exact ⟨fun hgoes => hstays fun hlen =>
        absurd (hgoes.symm.trans (hiff.2 hlen)) Bool.noConfusion, fun hstops =>
        .inr (hback (hiff.1 hstops))⟩
    | finishes _ hlast hdone =>
      rw [isFinished, hw'] at hdone
      exact ⟨fun hgoes => absurd (hgoes.symm.trans hlast) Bool.noConfusion, fun _ => .inl hdone⟩
  | finish _ _ _ hfinish =>
    have hdone := Walker.finished_finishRoot hfinish
    refine ⟨fun hgoes => ?_, fun _ => .inl hdone⟩
    subst hgoes
    obtain ⟨v, hv, hfv⟩ := step_again hf hstep
    obtain rfl := Option.some.inj (hv.symm.trans hw')
    exact absurd (hfv.symm.trans hdone) Bool.noConfusion

/-- A step over a rule that is about to be entered stops when the rule has returned, or comes to the
end. -/
theorem resume_stepOver_returned (hwired : net.Wired) (hseal : net.Sealed)
    (hmarks : net.MarksPrecedence) (hs : Tracks net s) (hb : s.breakpoints.states = [])
    (henter : s.AboutToEnter) (h : s.resume .stepOver = .ok t) :
    t.isFinished = true ∨ s.Returned t := by
  obtain ⟨w, hw, ⟨hf, rfl⟩ | ⟨hf, st, hst, hruns⟩⟩ := resume_cases h
  · exact .inl (isFinished_of_walker hw hf)
  obtain rfl := hs.net w hw
  have henters := (henter.state hw hst).2
  have hrun : (s.runFrom .stepOver st).StopsAtReturns := .inr ⟨rfl, by rw [runFrom, henters]; rfl⟩
  obtain ⟨c, l, ha, hframes⟩ := hs.running w hw hf
  have hends (depth : Nat) : (s.runFrom .stepOver st).endsAt depth = true ↔
      depth = (w.outside c l).length := by
    rw [endsAt_stepOver henters, CallStack.depth, ← List.length_map (·.rule), hframes,
      Walker.entered_eq, List.length_map]
  obtain ⟨u, v, ⟨htu, hbu, hin⟩, hv, hfv, hlast⟩ := run_keeps (I := fun a => Tracks w.net a ∧
      a.breakpoints.states = [] ∧ ∀ v, a.walker = some v → v.Passing (w.callSite c) (w.outside c l))
    (fun {a b v} hI hv hfv hstep => by
      obtain ⟨hta, hba, hin⟩ := hI
      obtain ⟨v', hv', hstays, -⟩ :=
        step_passing hwired hseal hmarks hta hrun hends hba hv hfv (hin v hv) hstep
      refine ⟨step_tracks hwired hseal hmarks hta hv hfv hstep, (step_cases hstep).2 ▸ hba,
        fun x hx => ?_⟩
      exact Option.some.inj (hv'.symm.trans hx) ▸ hstays rfl)
    ⟨hs, hb, fun v hv => Option.some.inj (hw.symm.trans hv) ▸
      henter.passing hs.parser hw ha⟩ hw hf hruns
  obtain ⟨w', hw', -, hback⟩ :=
    step_passing hwired hseal hmarks htu hrun hends hbu hv hfv (hin v hv) hlast
  obtain hdone | ⟨hopen, hgoes⟩ := hback rfl
  · exact .inl (isFinished_of_walker hw' hdone)
  · exact .inr ⟨w, hw, w', hw', c, l, ha.tree, hopen, hgoes⟩

/-- In a session that is created over a loaded network with its states sorted into rules, as long as
no breakpoint is bound: a step out leaves the innermost frame and none below it, and a step over a
rule that is about to be entered keeps all frames, unless the parse comes to its end. In sealed
rules that rule has then returned, and at the end no frame is left. -/
theorem steps_return {words : List Wire.Word} {options : LoadOptions} {lexer : Network}
    {grammar : Grammar} {outline : Outline} {stopOnEntry : Bool} {u : Session}
    (hload : loadWords words options = .ok net) (hpart : net.Partitioned)
    (hs : create net lexer grammar outline stopOnEntry = .ok s) (asks : List Ask)
    (hu : asks.foldl answer s = u) (hb : u.breakpoints.states = []) :
    (∀ t, 1 ≤ u.callStack.depth → u.resume .stepOut = .ok t →
      t.isFinished = true ∨ u.KeepsOuter t (u.callStack.depth - 1)) ∧
    (∀ t, u.AboutToEnter → u.resume .stepOver = .ok t → t.isFinished = true ∨
    u.KeepsOuter t u.callStack.depth) ∧
    (net.Sealed → (∀ t, u.AboutToEnter → u.resume .stepOver = .ok t → t.isFinished = true ∨
    u.Returned t) ∧
      ∀ t mode, u.resume mode = .ok t → t.isFinished = true → t.callStack.frames = []) := by
  have hwired := (loadWords_wired hload).1
  have hmarks := loadWords_marks hload
  have hhas : u.Has net fun _ => True := by
    subst hu
    refine foldl_keeps (P := Has net fun _ => True) (fun ask _ a ha => ?_) ?_
    · exact ha.answer (fun _ _ _ _ => trivial) (fun _ _ _ _ _ _ => trivial) ask
    · exact ⟨(begins_create hs).parser, by rw [(create_eq_ok.1 hs).2.2]; exact nofun⟩
  refine ⟨fun t hd => resume_stepOut hb hd,
    fun t => resume_stepOver (hpart.callsEnter hwired) hhas hb, fun hseal => ?_⟩
  have htracks : Tracks net u := by
    subst hu
    refine foldl_keeps (P := Tracks net)
      (fun ask _ a ha => answer_tracks hwired hseal hmarks ha ask) ?_
    rw [(create_eq_ok.1 hs).2.2]
    exact ⟨rfl, nofun, nofun, nofun⟩
  refine ⟨fun t => resume_stepOver_returned hwired hseal hmarks htracks hb,
    fun t mode ht hdone => ?_⟩
  have hafter := answer_tracks hwired hseal hmarks htracks (.resume mode)
  rw [answer, ht] at hafter
  obtain ⟨w, hw, hf⟩ := (Option.any_eq_true _ _).1 hdone
  exact (hafter.done w hw hf).1

/-- A session over the words, with states sorted into rules, steps over a rule that it is about to
enter. -/
structure StepsOver (words : List Wire.Word) (u t : Session) : Prop where
  loads : loadWords words { optimize := false } = .ok (loaded words)
  sorted : (loaded words).Partitioned
  reached : ∃ s, create (loaded words) letterSession.lexer default default true = .ok s ∧
    ∃ asks : List Ask, asks.foldl answer s = u
  unbound : u.breakpoints.states = []
  enters : u.AboutToEnter
  resumes : u.resume .stepOver = .ok t

theorem stepsOver_of_within (words : List Wire.Word) (n : Nat) (asks : List Ask)
    (p : Session → Session → Bool)
    (hload : (loadWords words { optimize := false }).toOption.isSome = true)
    (hpart : (loaded words).Partitioned) (hkind : (loaded words).kind = .parser)
    (hrun : (asks.foldlM (answerWithin n) (sessionOver words)).any
      (fun u => decide (u.breakpoints.states = []) && decide u.AboutToEnter &&
      (u.resumeWithin n .stepOver).any (p u)) = true) :
    ∃ u t, StepsOver words u t ∧ p u t = true := by
  have h := answers_of_any n (sessionOver words) asks _ hrun
  simp only [Bool.and_eq_true, decide_eq_true_eq, Option.any_eq_true] at h
  obtain ⟨⟨hb, henter⟩, t, ht, hp⟩ := h
  have hs : create (loaded words) letterSession.lexer default default true =
      .ok (sessionOver words) :=
    create_eq_ok.2 ⟨hkind, rfl, rfl⟩
  exact ⟨_, t, ⟨loadWords_loaded hload, hpart, ⟨_, hs, asks, rfl⟩, hb, henter, resume_of_within ht⟩,
    hp⟩

open Wire in
/-- In front of the call of `oneCall` a step over comes back behind it, with the frame of the
caller. -/
theorem steps_return_oneCall :
    ∃ u t, StepsOver oneCall u t ∧ t.isFinished = false ∧ u.callStack.depth = 1 ∧
    u.KeepsOuter t 1 ∧ u.Returned t := by
  obtain ⟨u, t, hover, hat⟩ := stepsOver_of_within oneCall 9 [.start 0 "", .resume .stepIn]
    (fun u t => decide (t.isFinished = false ∧ u.callStack.depth = 1)) (by decide +kernel)
      (by decide +kernel)
    (by decide +kernel) (by decide +kernel)
  obtain ⟨hf, hdepth⟩ := of_decide_eq_true hat
  obtain ⟨s, hs, asks, hu⟩ := hover.reached
  have hgoes : ¬ t.isFinished = true := by simp [hf]
  obtain ⟨-, hkeeps, hsealed⟩ := steps_return hover.loads hover.sorted hs asks hu hover.unbound
  exact ⟨u, t, hover, hf, hdepth, hdepth ▸ (hkeeps t hover.enters hover.resumes).resolve_left hgoes,
    ((hsealed (by decide +kernel)).1 t hover.enters hover.resumes).resolve_left hgoes⟩

end Session

namespace Wire

/-- The calls in the rules 3 and 4 go on in the rules 2 and 3. So the precedence rule 3 is left at
the stop of rule 2, and rule 4, at that of rule 3, goes back to where rule 3 was called from. -/
def staleRecursion : List Word :=
  markedWords [6]
    [[2, 0], [7, 0], [2, 1], [7, 1], [2, 2], [7, 2], [2, 3], [7, 3], [2, 4], [7, 4], [2, 5], [7, 5],
      [1, 0], [1, 0], [1, 1], [1, 1], [1, 1], [1, 2], [1, 2], [1, 3], [1, 2], [1, 3], [1, 4]]
      [0, 2, 4, 6, 8, 10]
    [eps 0 12, callOf 12 13 2 1, eps 13 1, eps 2 14, callOf 14 15 4 2, callOf 15 16 8 4, eps 16 3,
      eps 4 17, callOf 17 18 6 3, eps 18 5, eps 6 19, callOf 19 20 10 5, eps 20 5, eps 8 22,
      callOf 22 21 10 5, eps 21 7, eps 10 11] []

/-- The call in rule 2 goes on in the precedence rule 1, whose return closes the nodes of both. -/
def sharedReturn : List Word :=
  markedWords [2]
    [[2, 0], [7, 0], [2, 1], [7, 1], [2, 2], [7, 2], [2, 3], [7, 3], [1, 0], [1, 0], [1, 1], [1, 1],
      [1, 2]] [0, 2, 4, 6]
    [eps 0 8, callOf 8 9 2 1, eps 9 1, eps 2 10, callOf 10 11 4 2, eps 11 3, eps 4 12,
      callOf 12 11 6 3, eps 6 7] []

end Wire

namespace Session

open Wire

/-- Where calls go on in another rule, a step over stops with the frames of its start and the rule
still open, and the parse ends with a frame that it has not left. -/
theorem steps_astray :
    (∃ u t, StepsOver staleRecursion u t ∧ t.isFinished = false ∧ ¬ u.Returned t) ∧
    ∃ u t, StepsOver sharedReturn u t ∧ t.isFinished = true ∧ u.callStack.depth = 0 ∧
    t.callStack.depth = 1 := by
  constructor
  · obtain ⟨u, t, hover, hat⟩ :=
      stepsOver_of_within staleRecursion 60 [.start 0 "", .resume .stepIn]
      (fun u t => !t.isFinished && u.walker.any (fun w =>
        w.context == some 0 && !w.net.startsRule w.state) && t.walker.any (·.context == some 1))
      (by decide +kernel) (by decide +kernel) (by decide +kernel) (by decide +kernel)
    simp only [Bool.and_eq_true, Bool.not_eq_true', Option.any_eq_true, beq_iff_eq] at hat
    obtain ⟨⟨hf, w, hw, hcontext, hnot⟩, w', hw', hcontext'⟩ := hat
    refine ⟨u, t, hover, hf, ?_⟩
    rintro ⟨v, hv, v', hv', c, l, hopen, hopen', -⟩
    obtain rfl := Option.some.inj (hw.symm.trans hv)
    obtain rfl := Option.some.inj (hw'.symm.trans hv')
    -- the node of the caller would be the innermost open one again
    rw [Walker.outside, hnot] at hopen'
    exact absurd (hcontext'.symm.trans
      (hopen'.context_eq.trans (hopen.context_eq.symm.trans hcontext))) (by decide)
  · obtain ⟨u, t, hover, hat⟩ := stepsOver_of_within sharedReturn 40 [.start 0 ""]
      (fun u t => decide (t.isFinished = true ∧ u.callStack.depth = 0 ∧ t.callStack.depth = 1))
      (by decide +kernel) (by decide +kernel) (by decide +kernel) (by decide +kernel)
    exact ⟨u, t, hover, of_decide_eq_true hat⟩

end Session

end GrammarWalk
