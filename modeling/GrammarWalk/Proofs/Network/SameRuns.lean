import GrammarWalk.Proofs.Network.Rewrite

/-! A rewrite keeps the runs: between old states the same words lead over the followed lists before
and after it. In the other direction an inlined call comes back, so it must cost nothing. -/

namespace GrammarWalk.Network

/-- The one way on from `s` is an epsilon edge to `t`. -/
def Hop (net : Network) (s t : Nat) : Prop :=
  ∃ (st : State) (r : Option Nat), net.states[s]? = some st ∧ st.isRuleStop = false ∧
    st.isSilent = true ∧ st.followed = [.epsilon t r]

/-- `s` leads to `t` without a choice. -/
def Skips (net : Network) : Nat → Nat → Prop := Relation.ReflTransGen net.Hop

/-- From `s` there is one way to the stop `stop` of a rule, and on it the match `m` and no other. -/
structure Sole (net : Network) (stop s : Nat) (m : Edge) : Prop where
  labelled : m.isLabelled = true
  reaches : ∃ (t : Nat) (st : State), net.Skips s t ∧ net.states[t]? = some st ∧
    st.isRuleStop = false ∧ st.followed = [m]
  ends : m.target = stop ∨ net.Hop m.target stop

/-- A run of the called rule from the call to the rule's stop reads one symbol, any that `m`
accepts. -/
def Matches (net : Network) (cost : Call → Nat) (lo hi : Int) (c : Call) (m : Edge) : Prop :=
  ∃ z, net.ruleStops[c.rule]? = some z ∧ ∀ {n : Nat} {w : List Int},
    net.Run State.followed cost lo hi n c.start z w ↔ ∃ v, w = [v] ∧ m.accepts v lo hi = true

/-- A call of the network that may be inlined costs nothing, and its match can stand for it. -/
def Inlinable (net : Network) (cost : Call → Nat) (lo hi : Int) (free : Call → Edge → Prop) :
    Prop :=
  ∀ {s : Nat} {st : State} {c : Call} {m : Edge}, net.states[s]? = some st → .call c ∈ st.followed →
    free c m → net.Matches cost lo hi c m ∧ cost c = 0

variable {free : Call → Edge → Prop} {net net' : Network} {cost : Call → Nat} {lo hi : Int}
  {n s t stop : Nat} {st : State} {es' : List Edge} {w : List Int} {m : Edge}

theorem Hop.run_iff (h : net.Hop s t) {z : Nat} :
    net.Run State.followed cost lo hi n s z w ↔ net.Run State.followed cost lo hi n t z w := by
  obtain ⟨st, r, hs, ht, -, hf⟩ := h
  constructor
  · intro hrun
    obtain ⟨e, he, hrun⟩ := hrun.first hs ht
    rw [hf, List.mem_singleton] at he
    subst he
    rcases hrun with ⟨-, -, hrun⟩ | ⟨v, u, -, ha, -⟩ | ⟨c, _, _, _, _, hc, -⟩
    · exact hrun
    · exact nomatch ha
    · exact nomatch hc
  · intro hrun
    exact .silent hs ht (e := .epsilon t r) (by simp [hf]) rfl rfl hrun

theorem Skips.run_iff (h : net.Skips s t) {z : Nat} :
    net.Run State.followed cost lo hi n s z w ↔ net.Run State.followed cost lo hi n t z w := by
  induction h with
  | refl => exact Iff.rfl
  | tail _ hop ih => exact ih.trans hop.run_iff

theorem run_of_match {view : State → List Edge} (h : net.states[s]? = some st)
    (hns : st.isRuleStop = false) (hview : view st = [m]) (hm : m.isLabelled = true) :
    net.Run view cost lo hi n s t w ↔
      ∃ v u, w = v :: u ∧ m.accepts v lo hi = true ∧ net.Run view cost lo hi n m.target t u := by
  obtain ⟨hsil, hcall, -⟩ := Edge.of_isLabelled hm
  constructor
  · intro hrun
    obtain ⟨e, he, hrun⟩ := hrun.first h hns
    rw [hview] at he
    obtain rfl := List.mem_singleton.1 he
    rcases hrun with ⟨hs', -, -⟩ | hread | ⟨c, _, _, _, _, hc, -⟩
    · rw [hsil] at hs'; exact nomatch hs'
    · exact hread
    · rw [hc] at hcall; exact nomatch hcall
  · rintro ⟨v, u, rfl, ha, hrun⟩
    exact .read h hns (hview ▸ List.mem_singleton.2 rfl) ha hrun

theorem Sole.run_iff (h : net.Sole stop s m)
    (hstop : ∃ st : State, net.states[stop]? = some st ∧ st.isRuleStop = true) :
    net.Run State.followed cost lo hi n s stop w ↔ ∃ v, w = [v] ∧ m.accepts v lo hi = true := by
  obtain ⟨sst, hsst, hst⟩ := hstop
  obtain ⟨t, st, hskips, ht, hns, hf⟩ := h.reaches
  have hend : ∀ {u : List Int}, net.Run State.followed cost lo hi n m.target stop u ↔ u = [] := by
    intro u
    have key : net.Run State.followed cost lo hi n stop stop u ↔ u = [] :=
      ⟨fun hrun => (hrun.of_stop hsst hst).2, fun hu => hu ▸ .stop hsst hst⟩
    rcases h.ends with heq | hop
    · rw [heq, key]
    · rw [hop.run_iff, key]
  rw [hskips.run_iff, run_of_match ht hns hf h.labelled]
  refine exists_congr fun v => ⟨?_, ?_⟩
  · rintro ⟨u, rfl, ha, hrun⟩
    exact ⟨by rw [hend.1 hrun], ha⟩
  · rintro ⟨rfl, ha⟩
    exact ⟨[], rfl, ha, hend.2 rfl⟩

theorem run_matching {fresh : Nat} {r : Option Nat}
    (h : net.states[fresh]? = some (.matching fresh r m)) (hm : m.isLabelled = true) :
    net.Run State.followed cost lo hi n fresh t w ↔
      ∃ v u, w = v :: u ∧ m.accepts v lo hi = true ∧
        net.Run State.followed cost lo hi n m.target t u :=
  run_of_match h rfl rfl hm

theorem accepts_retarget (e : Edge) (t : Nat) (v lo hi : Int) :
    (e.retarget t).accepts v lo hi = e.accepts v lo hi := by
  cases e <;> rfl

section forward

variable (g : Grows net net' s st es')
include g

theorem Grows.run_of_splices {e : Edge} {mid : State} (hm : net.Splices s e mid)
    (hes : ∀ hop ∈ mid.followed, .plain hop.target ∈ es') (hns : st.isRuleStop = false)
    (hrun : net'.Run State.followed cost lo hi n e.target t w) :
    net'.Run State.followed cost lo hi n s t w := by
  obtain ⟨hop, hh, hrun⟩ := hrun.first (g.kept hm.state hm.other) hm.not_stop
  obtain ⟨hsil, hcall⟩ := Edge.isSilent_of_isPlain (hm.hops hop hh)
  rcases hrun with ⟨-, -, hrun⟩ | ⟨v, u, -, ha, -⟩ | ⟨c, _, _, _, _, hc, -⟩
  · exact .silent g.changed hns (hes hop hh) rfl rfl hrun
  · rw [Edge.not_accepts_of_isSilent hsil] at ha; cases ha
  · rw [hc] at hcall; cases hcall

theorem Grows.run_of_branch (hsil : net.StopsSilent) {e b : Edge} {fresh : Nat}
    (hb : net.Branch e b) (htarget : b.target = m.target)
    (hacc : ∀ {v lo hi : Int}, b.accepts v lo hi = true → m.accepts v lo hi = true)
    (hm : m.isLabelled = true) {r : Option Nat}
    (hfresh : net'.states[fresh]? = some (.matching fresh r m)) (hjoin : .plain fresh ∈ es')
    (he : e ∈ st.followed) (hns : st.isRuleStop = false)
    (hrun : net'.Run State.followed cost lo hi n e.target t w) :
    net'.Run State.followed cost lo hi n s t w := by
  obtain ⟨bst, hbst, hbns, hbf⟩ := hb.not_stop hsil
  obtain ⟨v, u, rfl, ha, hrun⟩ :=
    (run_of_match (g.kept hbst (g.branch_ne hb he)) hbns hbf hb.labelled).1 hrun
  refine .silent g.changed hns hjoin rfl rfl ?_
  exact (run_matching hfresh hm).2 ⟨v, u, rfl, hacc ha, htarget ▸ hrun⟩

theorem Grows.run_of_call {c : Call} {fresh z : Nat} {u : List Int} (hns : st.isRuleStop = false)
    (hin : Inlines free net net' c fresh m) (hjoin : .plain fresh ∈ es')
    (hmatch : net.Matches cost lo hi c m) (hz : net.ruleStops[c.rule]? = some z) {k : Nat}
    (hcall : net.Run State.followed cost lo hi k c.start z u)
    (hrun : net'.Run State.followed cost lo hi n c.follow t w) :
    net'.Run State.followed cost lo hi n s t (u ++ w) := by
  obtain ⟨z', hz', hmatch⟩ := hmatch
  obtain rfl := Option.some.inj (hz.symm.trans hz')
  obtain ⟨v, rfl, ha⟩ := hmatch.1 hcall
  refine .silent g.changed hns hjoin rfl rfl ?_
  refine (run_matching hin.state ?_).2 ⟨v, w, rfl, ?_, ?_⟩
  · rw [isLabelled_retarget, hin.labelled]
  · rw [accepts_retarget, ha]
  · rw [Edge.target_retarget]
    exact hrun

end forward

theorem Rewrite.run (h : Rewrite free net net') (hstops : net.StopsSilent)
    (hfree : net.Inlinable cost lo hi free)
    (hrun : net.Run State.followed cost lo hi n s t w) :
    net'.Run State.followed cost lo hi n s t w := by
  obtain ⟨x, xst, es', g, hold⟩ := h.grows
  induction hrun with
  | stop hs ht =>
    obtain ⟨l, hs'⟩ := g.old hs
    exact .stop hs' ht
  | @silent n s t w st e hs ht he hsil hc _ ih =>
    by_cases hx : s = x
    · subst hx
      obtain rfl := Option.some.inj (hs.symm.trans g.state)
      rcases hold with ⟨_, _, hr⟩ | ⟨fresh, m, hm⟩
      · rcases hr.of_mem he with he' | ⟨mid, hmid, hes⟩ | ⟨c, _, _, rfl, -, -⟩
        · exact .silent g.changed ht he' hsil hc ih
        · exact g.run_of_splices hmid hes ht ih
        · cases hc
      · rcases hm.of_mem he with he' | ⟨b, hb, htarget, hacc⟩
        · exact .silent g.changed ht he' hsil hc ih
        · exact g.run_of_branch hstops hb htarget hacc hm.labelled hm.state hm.joined he ht ih
    · exact .silent (g.kept hs hx) ht he hsil hc ih
  | @read n s t w st e v hs ht he ha _ ih =>
    by_cases hx : s = x
    · subst hx
      obtain rfl := Option.some.inj (hs.symm.trans g.state)
      exact .read g.changed ht (mem_rewritten_of_mem hold he (Edge.isSilent_of_accepts ha)) ha ih
    · exact .read (g.kept hs hx) ht he ha ih
  | @call k n s t z u w st c hs ht he hz hk hcall _ ihcall ih =>
    have hz' : net'.ruleStops[c.rule]? = some z := g.ruleStops_eq ▸ hz
    by_cases hx : s = x
    · subst hx
      obtain rfl := Option.some.inj (hs.symm.trans g.state)
      rcases hold with ⟨_, _, hr⟩ | ⟨fresh, m, hm⟩
      · rcases hr.of_mem he with he' | ⟨mid, hmid, -⟩ | ⟨c', fresh, m, hc', hi, hjoin⟩
        · exact .call g.changed ht he' hz' hk ihcall ih
        · cases hmid.plain
        · obtain rfl := Edge.call.inj hc'
          exact g.run_of_call ht hi hjoin (hfree hs he hi.free).1 hz hcall ih
      · rcases hm.of_mem he with he' | ⟨b, hb, -⟩
        · exact .call g.changed ht he' hz' hk ihcall ih
        · cases hb.epsilon
    · exact .call (g.kept hs hx) ht he hz' hk ihcall ih

/-- What a run of the rewritten network from `s` was before: from an old state the same run, from a
new one a symbol of its match and then a run of the old network. -/
structure WasRun (net net' : Network) (cost : Call → Nat) (lo hi : Int) (n s t : Nat)
    (w : List Int) : Prop where
  old : s < net.states.size → net.Run State.followed cost lo hi n s t w
  new : ∀ {r : Option Nat} {m : Edge}, net.states.size ≤ s →
    net'.states[s]? = some (.matching s r m) → ∃ v u, w = v :: u ∧ m.accepts v lo hi = true ∧
      net.Run State.followed cost lo hi n m.target t u

section backward

variable (g : Grows net net' s st es')
include g

theorem Grows.run_of_spliced {e hop : Edge} {mid : State} (hns : st.isRuleStop = false)
    (he : e ∈ st.followed) (hm : net.Splices s e mid) (hhop : hop ∈ mid.followed)
    (hrun : net.Run State.followed cost lo hi n hop.target t w) :
    net.Run State.followed cost lo hi n s t w := by
  obtain ⟨hsil, hcall⟩ := Edge.isSilent_of_isPlain hm.plain
  obtain ⟨hsil', hcall'⟩ := Edge.isSilent_of_isPlain (hm.hops hop hhop)
  exact .silent g.state hns he hsil hcall (.silent hm.state hm.not_stop hhop hsil' hcall' hrun)

theorem Grows.run_of_inlined {c : Call} {fresh : Nat} (hns : st.isRuleStop = false)
    (hc : .call c ∈ st.followed) (hin : Inlines free net net' c fresh m)
    (hmatch : net.Matches cost lo hi c m) (hcost : cost c = 0)
    (hwas : WasRun net net' cost lo hi n fresh t w) :
    net.Run State.followed cost lo hi n s t w := by
  obtain ⟨z, hz, hmatch⟩ := hmatch
  obtain ⟨v, u, rfl, ha, hrun⟩ := hwas.new hin.beyond hin.state
  rw [accepts_retarget] at ha
  rw [Edge.target_retarget] at hrun
  have hcall : net.Run State.followed cost lo hi 0 c.start z [v] := hmatch.2 ⟨v, rfl, ha⟩
  exact .call g.state hns hc hz (by rw [hcost]; omega) hcall hrun

theorem Grows.run_of_merged (hstops : net.StopsSilent) {fresh : Nat} (hns : st.isRuleStop = false)
    (hm : Merged net net' s st.followed es' fresh m)
    (hwas : WasRun net net' cost lo hi n fresh t w) :
    net.Run State.followed cost lo hi n s t w := by
  obtain ⟨v, u, rfl, ha, hrun⟩ := hwas.new hm.beyond hm.state
  obtain ⟨e, he, b, hb, htarget, hb'⟩ := hm.back ha
  obtain ⟨bst, hbst, hbns, hbf⟩ := hb.not_stop hstops
  have hsil : e.isSilent = true ∧ e.call? = none := by
    have := hb.epsilon
    cases e <;> simp_all [Edge.isEpsilon, Edge.isSilent, Edge.call?]
  refine .silent g.state hns he hsil.1 hsil.2 (.read hbst hbns (by simp [hbf]) hb' ?_)
  rw [htarget]
  exact hrun

end backward

theorem Grows.new_run {x : Nat} (g : Grows net net' s st es') (hx : net.states.size ≤ x)
    {xst : State} (hs : net'.states[x]? = some xst) :
    xst.isRuleStop = false ∧
      ∀ e ∈ xst.followed, e.isSilent = false ∧ e.call? = none := by
  obtain ⟨m, r, rfl, hm, -⟩ := g.new hs hx
  obtain ⟨hsil, hcall, -⟩ := Edge.of_isLabelled hm
  exact ⟨rfl, fun e he => by obtain rfl := List.mem_singleton.1 he; exact ⟨hsil, hcall⟩⟩

theorem Rewrite.wasRun (h : Rewrite free net net') (hw : net.Wired) (hstops : net.StopsSilent)
    (hfree : net.Inlinable cost lo hi free)
    (hrun : net'.Run State.followed cost lo hi n s t w) : WasRun net net' cost lo hi n s t w := by
  obtain ⟨x, xst, es', g, hnew⟩ := h.grows
  have fresh_target {k : Nat} {r : Option Nat} {m : Edge} (hk : net.states.size ≤ k)
      (hs : net'.states[k]? = some (.matching k r m)) : m.target < net.states.size := by
    obtain ⟨m', r', heq, -, hf, -⟩ := g.new hs hk
    obtain rfl : m = m' := by
      have := congrArg State.edges heq
      exact (List.cons.inj this).1
    exact hw.lt_of_follows hf
  induction hrun with
  | stop hs ht =>
    refine ⟨fun hlt => ?_, fun hle hs' => ?_⟩
    · rcases g.cases hs hlt with ⟨rfl, rfl⟩ | ⟨-, hs⟩
      · exact .stop g.state ht
      · exact .stop hs ht
    · rw [(g.new_run hle hs).1] at ht
      cases ht
  | @silent n s t w st e hs ht he hsil hc _ ih =>
    refine ⟨fun hlt => ?_, fun hle hs' => ?_⟩
    · rcases g.cases hs hlt with ⟨rfl, rfl⟩ | ⟨-, hs⟩
      · have kept (he : e ∈ xst.followed) : net.Run State.followed cost lo hi n s t w :=
          .silent g.state ht he hsil hc
            (ih.old (Edge.onward_of_call?_eq_none hc ▸ hw.onward_lt g.state he))
        rcases hnew with ⟨_, _, hr⟩ | ⟨fresh, m, hm⟩
        · rcases hr.mem_of he with he | ⟨f, hf, mid, hmid, hop, hhop, rfl⟩ | ⟨c, fresh, m,
            hcall, hi, rfl⟩
          · exact kept he
          · have hlt' := Edge.onward_of_isPlain (hmid.hops hop hhop) ▸ hw.onward_lt hmid.state hhop
            exact g.run_of_spliced ht hf hmid hhop (ih.old hlt')
          · obtain ⟨hmatch, hcost⟩ := hfree g.state hcall hi.free
            exact g.run_of_inlined ht hcall hi hmatch hcost ih
        · rcases hm.mem_of he with rfl | he
          · exact g.run_of_merged hstops ht hm ih
          · exact kept he
      · exact .silent hs ht he hsil hc
          (ih.old (Edge.onward_of_call?_eq_none hc ▸ hw.onward_lt hs he))
    · rw [((g.new_run hle hs).2 e he).1] at hsil
      cases hsil
  | @read n s t w st e v hs ht he ha _ ih =>
    have hc : e.call? = none := by cases e <;> simp_all [Edge.call?, Edge.accepts]
    refine ⟨fun hlt => ?_, fun hle hs' => ?_⟩
    · have kept {old : State} (hs : net.states[s]? = some old) (ht : old.isRuleStop = false)
          (he : e ∈ old.followed) : net.Run State.followed cost lo hi n s t (v :: w) :=
        .read hs ht he ha (ih.old (Edge.onward_of_call?_eq_none hc ▸ hw.onward_lt hs he))
      rcases g.cases hs hlt with ⟨rfl, rfl⟩ | ⟨-, hs⟩
      · exact kept g.state ht (mem_of_mem_rewritten hnew he (Edge.isPlain_of_accepts ha))
      · exact kept hs ht he
    · rw [hs'] at hs
      obtain rfl := Option.some.inj hs
      obtain rfl := List.mem_singleton.1 he
      exact ⟨v, w, rfl, ha, ih.old (fresh_target hle hs')⟩
  | @call k n s t z u w st c hs ht he hz hk _ _ ihcall ih =>
    refine ⟨fun hlt => ?_, fun hle hs' => ?_⟩
    · have kept {old : State} (hs : net.states[s]? = some old) (ht : old.isRuleStop = false)
          (he : .call c ∈ old.followed) : net.Run State.followed cost lo hi n s t (u ++ w) :=
        have hlt := hw.call_lt hs he
        .call hs ht he (g.ruleStops_eq ▸ hz) hk (ihcall.old hlt.1) (ih.old hlt.2)
      rcases g.cases hs hlt with ⟨rfl, rfl⟩ | ⟨-, hs⟩
      · exact kept g.state ht (mem_of_mem_rewritten hnew he rfl)
      · exact kept hs ht he
    · cases ((g.new_run hle hs).2 _ he).2

theorem Rewrite.run_iff (h : Rewrite free net net') (hw : net.Wired) (hstops : net.StopsSilent)
    (hfree : net.Inlinable cost lo hi free)
    (hs : s < net.states.size) : net.Run State.followed cost lo hi n s t w ↔
      net'.Run State.followed cost lo hi n s t w :=
  ⟨h.run hstops hfree, fun hrun => (h.wasRun hw hstops hfree hrun).old hs⟩

end GrammarWalk.Network
