import GrammarWalk.Proofs.Load.Finish
import GrammarWalk.Proofs.Load.TailCalls
import GrammarWalk.Proofs.Load.Untouched
import GrammarWalk.Proofs.Network.Inlining

/-! A loaded network against the draft that it comes from. The draft may have been optimized, and
then its tail calls are judged. Along the followed lists there are the same runs as along the raw
ones, at the same cost, if a call costs something only where it is still followed and is no tail
call. -/

namespace GrammarWalk.Network

variable {base opt net net' a b : Network} {free : Call → Edge → Prop} {cost : Call → Nat}
  {bound n s t : Nat}
  {st : State} {lo hi : Int} {w : List Int}

section owners

/-- Where the followed lists of the first states stay in a rule, they do after a rewrite. What is
spliced away is one of these states, since the others take input. -/
theorem Rewrite.ownerOf_onward (hr : Rewrite free a b) (hrange : a.InRange)
    (hbound : bound ≤ a.states.size)
    (hmatch : ∀ {s : Nat} {st : State}, a.states[s]? = some st → bound ≤ s → st.isSilent = false)
    (hk : ∀ {s t : Nat}, s < bound → a.Onward State.followed s t → a.ownerOf t = a.ownerOf s) :
    s < bound → b.Onward State.followed s t → b.ownerOf t = b.ownerOf s := by
  obtain ⟨x, xst, es', g, hnew⟩ := hr.grows
  have same {t : Nat} (ht : t < a.states.size) : b.ownerOf t = a.ownerOf t :=
    g.ownerOf_eq (Array.getElem?_eq_getElem ht)
  rintro hs ⟨st, hst, hns, e, he, rfl⟩
  have hlt : s < a.states.size := Nat.lt_of_lt_of_le hs hbound
  have old {st : State} {e : Edge} (hst : a.states[s]? = some st) (hns : st.isRuleStop = false)
    (he : e ∈ st.followed) :
      b.ownerOf e.onward = b.ownerOf s := by
    rw [same hlt, same ((hrange.within hst).followed e he).onward_lt]
    exact hk hs ⟨st, hst, hns, e, he, rfl⟩
  obtain ⟨rfl, rfl⟩ | ⟨-, hold⟩ := g.cases hst hlt
  · have hns : xst.isRuleStop = false := hns
    obtain ⟨_, _, hreplaced⟩ | ⟨fresh, m, hm⟩ := hnew
    · obtain he | ⟨f, hf, mid, hmid, hop, hhop, rfl⟩ | ⟨c, fresh, m, hc, hi, rfl⟩ :=
        hreplaced.mem_of he
      · exact old g.state hns he
      · have hmidLt : f.target < bound := by
          by_contra hge
          have hloud := hmatch hmid.state (Nat.not_lt.1 hge)
          rw [hmid.silent] at hloud
          cases hloud
        have hin := hk hs ⟨xst, g.state, hns, f, hf, rfl⟩
        have hhopped := hk hmidLt ⟨mid, hmid.state, hmid.not_stop, hop, hhop, rfl⟩
        have hwithin := ((hrange.within hmid.state).followed hop hhop).onward_lt
        rw [Edge.onward_of_isPlain hmid.plain] at hin
        rw [Edge.onward_of_isPlain (hmid.hops hop hhop)] at hhopped hwithin
        show b.ownerOf hop.target = _
        rw [same hlt, same hwithin, hhopped, hin]
      · show b.ownerOf fresh = _
        rw [Network.ownerOf_eq hi.state, same hlt]
        exact hk hs ⟨xst, g.state, hns, .call c, hc, rfl⟩
    · obtain rfl | he := hm.mem_of he
      · show b.ownerOf fresh = _
        rw [Network.ownerOf_eq hm.state, same hlt]
        rfl
      · exact old g.state hns he
  · exact old hold hns he

end owners

/-- A call costs one if it is still followed and is no tail call, and otherwise nothing. -/
noncomputable def charge (net : Network) (c : Call) : Nat :=
  open Classical in if net.Retains c ∧ ¬ net.QuietAhead State.followed c.follow then 1 else 0

theorem Retains.of_same {c c' : Call} (h : net.Retains c) (hstart : c'.start = c.start)
    (hrule : c'.rule = c.rule) (hfollow : c'.follow = c.follow) : net.Retains c' := by
  obtain ⟨s, st, k, hst, hk, hsame⟩ := h
  exact ⟨s, st, k, hst, hk, by rw [hstart, hrule, hfollow]; exact hsame⟩

theorem costsByWay_charge : CostsByWay net.charge := by
  intro c c' hstart hrule hfollow
  have hretains : net.Retains c' ↔ net.Retains c :=
    ⟨fun h => h.of_same hstart.symm hrule.symm hfollow.symm,
      fun h => h.of_same hstart hrule hfollow⟩
  rw [charge, charge, hfollow, hretains]

theorem charge_le (c : Call) : net.charge c ≤ 1 := by
  rw [charge]
  split
  · exact Nat.le_refl _
  · exact Nat.zero_le _

theorem Run.cheaper {view : State → List Edge} {cost' : Call → Nat}
    (h : net.Run view cost lo hi n s t w) (hle : ∀ c, cost' c ≤ cost c) :
    net.Run view cost' lo hi n s t w := by
  induction h with
  | stop hs ht => exact .stop hs ht
  | silent hs ht he hsil hc _ ih => exact .silent hs ht he hsil hc ih
  | read hs ht he ha _ ih => exact .read hs ht he ha ih
  | call hs ht he hz hm _ _ ih ih' =>
    exact .call hs ht he hz (Nat.le_trans (Nat.add_le_add_left (hle _) _) hm) ih ih'

theorem run_followed_withTailCalls (hw : opt.Wired) (hn : opt.withTailCalls = .ok net)
    (hcost : CostsByWay cost) (hs : s < opt.states.size) :
    net.Run State.followed cost lo hi n s t w ↔ opt.Run State.followed cost lo hi n s t w := by
  have hstops : net.ruleStops = opt.ruleStops := by rw [(withTailCalls_eq_ok hn).1]
  constructor
  · refine fun hrun => hrun.carry hs hstops.symm hcost fun {s st'} _ hst' => ?_
    obtain ⟨st, hst, hj⟩ := judged_of_getElem? hn hst'
    refine ⟨st, hst, by rw [hj.rest]; rfl, fun e' he' => ?_⟩
    obtain ⟨e, he, hje⟩ := exists_of_forall₂_right hj.followed he'
    exact ⟨hje.within ((hw.within hst).followed e he), e, he, hje.sameWay.symm⟩
  · refine fun hrun => hrun.carry hs hstops hcost fun {s st} _ hst => ?_
    obtain ⟨st', hst', hj⟩ := getElem?_withTailCalls hn hst
    refine ⟨st', hst', by rw [hj.rest]; rfl, fun e he => ?_⟩
    obtain ⟨e', he', hje⟩ := exists_of_forall₂_left hj.followed he
    exact ⟨(hw.within hst).followed e he, e', he', hje.sameWay⟩

/-- `net` is the draft `base`, perhaps optimized to `opt`, with its tail calls judged. -/
structure Stages (base opt net : Network) : Prop where
  draft : base.Draft
  rules : base.ruleStops.size = base.ruleStarts.size
  optimized : opt = base ∨ ∃ changes, base.optimize = .ok (changes, opt)
  judged : opt.withTailCalls = .ok net

namespace Stages

variable (h : Stages base opt net)
include h

theorem inRange : base.InRange := h.draft.toWired.inRange h.rules.ge

theorem untouched : Untouched base opt := by
  obtain rfl | ⟨changes, ho⟩ := h.optimized
  · exact ⟨⟨fun {_ st} hs => ⟨st.optimized, hs⟩, rfl⟩,
      fun hs hge => absurd (lt_size hs) (Nat.not_lt.2 hge)⟩
  · exact .optimize h.inRange ho

theorem finished : Finished base net := by
  refine h.untouched.toSameRaw.finished ?_ h.judged
  obtain rfl | ⟨changes, ho⟩ := h.optimized
  · exact .refl _
  · exact .optimize h.inRange ho

theorem wired : opt.Wired := by
  obtain rfl | ⟨changes, ho⟩ := h.optimized
  · exact h.draft.toWired
  · exact (optimize_links h.inRange h.draft.toWired ho).1

theorem size_le : base.states.size ≤ opt.states.size := h.untouched.size_le

theorem followsRaw : opt.FollowsRaw := by
  obtain rfl | ⟨changes, ho⟩ := h.optimized
  · exact fun hs he _ => h.draft.followed_eq hs ▸ he
  · exact (h.draft.trueTo_optimize h.inRange ho).followsRaw

theorem added (hs : net.states[s]? = some st) (hge : base.states.size ≤ s) :
    st.isRuleStop = false ∧
    ∃ m, st.edges = [m] ∧ st.followed = [m] ∧ m.isLabelled = true ∧
    m.target < base.states.size := by
  obtain ⟨mid, hmid, hj⟩ := judged_of_getElem? h.judged hs
  obtain ⟨rule, m, rfl, hm, htarget⟩ := h.untouched.added hmid hge
  have hcall := (Edge.of_isLabelled hm).2.1
  exact ⟨by rw [hj.rest]; rfl, m, (single_iff_of_judged hj.edges hcall).2 rfl,
    (single_iff_of_judged hj.followed hcall).2 rfl, hm, htarget⟩

theorem edge_cases {e : Edge} (hs : net.states[s]? = some st) (he : e ∈ st.edges) :
    (∃ old e₀, base.states[s]? = some old ∧ st.kind = old.kind ∧ e₀ ∈ old.edges ∧ Judged e₀ e) ∨
      e.isLabelled = true ∧ e.target < base.states.size := by
  obtain hlt | hge := Nat.lt_or_ge s base.states.size
  · have hold := Array.getElem?_eq_getElem hlt
    obtain ⟨st', hst', hkind, -, hjudged⟩ := h.finished.old hold
    obtain rfl := Option.some.inj (hs.symm.trans hst')
    obtain ⟨e₀, he₀, hj⟩ := exists_of_forall₂_right hjudged he
    exact .inl ⟨_, e₀, hold, hkind, he₀, hj⟩
  · obtain ⟨-, m, hedges, -, hm, htarget⟩ := h.added hs hge
    rw [hedges, List.mem_singleton] at he
    exact .inr ⟨he ▸ hm, he ▸ htarget⟩

theorem within {e : Edge} (hs : net.states[s]? = some st) (he : e ∈ st.edges) :
    e.Within base.states.size := by
  obtain ⟨old, e₀, hold, -, he₀, hj⟩ | ⟨hm, htarget⟩ := h.edge_cases hs he
  · exact hj.within ((h.draft.within hold).edges e₀ he₀)
  · exact ⟨htarget, fun c hc => by rw [(Edge.of_isLabelled hm).2.1] at hc; cases hc⟩

/-- A followed edge that is no plain epsilon edge leads the way of a raw edge of its state. -/
theorem raw_of_followed {e' : Edge} (hs : net.states[s]? = some st) (he : e' ∈ st.followed)
    (hplain : e'.isPlain = false) : ∃ e ∈ st.edges, SameWay e e' := by
  obtain ⟨mid, hmid, hj⟩ := judged_of_getElem? h.judged hs
  obtain ⟨e, he, hje⟩ := exists_of_forall₂_right hj.followed he
  have hraw : e ∈ mid.edges := by
    refine h.followsRaw hmid he ?_
    obtain rfl | ⟨c, _, _, rfl, -⟩ := hje
    · exact hplain
    · rfl
  obtain ⟨e'', he'', hje'⟩ := exists_of_forall₂_left hj.edges hraw
  exact ⟨e'', he'', hje'.sameWay.symm.trans hje.sameWay⟩

theorem ownerOf_onward
    (hin : ∀ {s t : Nat}, base.Onward State.edges s t → base.ownerOf t = base.ownerOf s)
    (hs : s < base.states.size) (hon : net.Onward State.followed s t) :
    net.ownerOf t = net.ownerOf s := by
  rw [ownerOf_withTailCalls h.judged, ownerOf_withTailCalls h.judged]
  have hon : opt.Onward State.followed s t := by
    obtain ⟨st', hst', hns, e', he', rfl⟩ := hon
    obtain ⟨st, hst, hj⟩ := judged_of_getElem? h.judged hst'
    obtain ⟨e, he, hje⟩ := exists_of_forall₂_right hj.followed he'
    rw [State.isRuleStop, hj.rest] at hns
    exact ⟨st, hst, hns, e, he, hje.onward_eq.symm⟩
  obtain rfl | ⟨changes, ho⟩ := h.optimized
  · obtain ⟨st, hst, hns, e, he, rfl⟩ := hon
    rw [h.draft.followed_eq hst] at he
    exact hin ⟨st, hst, hns, e, he, rfl⟩
  · refine (optimize_of_rewrites (P := fun m => Untouched base m ∧ m.GoesOnBelow base.states.size ∧
      m.InRange ∧ ∀ {s t : Nat}, s < base.states.size → m.Onward State.followed s t →
      m.ownerOf t = m.ownerOf s) h.inRange ⟨.ensureOptimized, .ensureOptimized h.inRange,
      h.inRange.ensureOptimized.toInRange, fun {s t} _ hon => ?_⟩ (fun {free a b} ha hr =>
      ?_) ho).2.2.2 hs hon
    · obtain ⟨st, hst, hns, e, he, rfl⟩ := hon
      obtain ⟨old, hold, rfl⟩ := h.draft.exists_of_ensureOptimized hst
      rw [ownerOf_ensureOptimized, ownerOf_ensureOptimized]
      exact hin ⟨old, hold, hns, e, he, rfl⟩
    · obtain ⟨huntouched, hbelow, hrange, hk⟩ := ha
      refine ⟨huntouched.rewrite hbelow hr, hbelow.rewrite hr, hr.inRange hrange,
        hr.ownerOf_onward hrange huntouched.size_le (fun {s st} hst hge => ?_) hk⟩
      obtain ⟨rule, m, rfl, hm, -⟩ := huntouched.added hst hge
      simp [State.isSilent, State.matching, (Edge.of_isLabelled hm).1]

theorem charges : opt.Charges net.charge := by
  intro c hc
  have hretains : net.Retains c := by
    by_contra hnot
    rw [charge, if_neg (fun hboth => hnot hboth.1)] at hc
    exact hc rfl
  obtain ⟨s, st', k', hst', hk', hstart, hrule, hfollow⟩ := hretains
  obtain ⟨st, hst, hj⟩ := judged_of_getElem? h.judged hst'
  obtain ⟨e, he, hje⟩ := exists_of_forall₂_right hj.followed hk'
  obtain heq | ⟨k, k'', rfl, heq, hstart', hrule', hfollow'⟩ := hje.sameWay
  · exact ⟨s, st, k', hst, heq ▸ he, hstart, hrule, hfollow⟩
  · obtain rfl := Edge.call.inj heq
    exact ⟨s, st, k, hst, he, hstart'.symm.trans hstart, hrule'.symm.trans hrule,
      hfollow'.symm.trans hfollow⟩

theorem run_iff_of_lt (hset : opt = base ∨ base.SetApart)
    (howned : ∀ st ∈ base.states.toList, st.rule ≠ none) (hs : s < base.states.size) :
    net.Run State.edges net.charge lo hi n s t w ↔
      net.Run State.followed net.charge lo hi n s t w := by
  have hoptimized : base.Run State.edges net.charge lo hi n s t w ↔
      opt.Run State.followed net.charge lo hi n s t w := by
    have of_eq (heq : opt = base) : base.Run State.edges net.charge lo hi n s t w ↔
        opt.Run State.followed net.charge lo hi n s t w := by
      subst heq
      constructor
      · exact fun hrun => hrun.congr rfl fun {s st} hst => ⟨st, hst, rfl, h.draft.followed_eq hst⟩
      · exact fun hrun => hrun.congr rfl fun {s st} hst =>
          ⟨st, hst, rfl, (h.draft.followed_eq hst).symm⟩
    obtain heq | hset := hset
    · exact of_eq heq
    · obtain heq | ⟨changes, ho⟩ := h.optimized
      · exact of_eq heq
      · exact (faithful_optimize hset h.draft h.rules howned ho h.charges).runs hs
  calc net.Run State.edges net.charge lo hi n s t w
    _ ↔ base.Run State.edges net.charge lo hi n s t w :=
      h.finished.run_iff h.draft.toWired costsByWay_charge hs
    _ ↔ opt.Run State.followed net.charge lo hi n s t w := hoptimized
    _ ↔ net.Run State.followed net.charge lo hi n s t w :=
      (run_followed_withTailCalls h.wired h.judged costsByWay_charge
        (Nat.lt_of_lt_of_le hs h.size_le)).symm

/-- The same symbols lead through a rule along the raw and along the followed lists, at the same
cost. -/
theorem run_iff (hset : opt = base ∨ base.SetApart)
    (howned : ∀ st ∈ base.states.toList, st.rule ≠ none) :
    net.Run State.edges net.charge lo hi n s t w ↔
      net.Run State.followed net.charge lo hi n s t w := by
  obtain hlt | hge := Nat.lt_or_ge s base.states.size
  · exact h.run_iff_of_lt hset howned hlt
  · cases hst : net.states[s]? with
    | none =>
      -- no run begins outside the network
      have absent {view : State → List Edge} : ¬ net.Run view net.charge lo hi n s t w :=
        fun hrun => by
        cases hrun <;> simp_all
      exact ⟨fun hrun => (absent hrun).elim, fun hrun => (absent hrun).elim⟩
    | some st =>
      obtain ⟨hns, m, hedges, hfollowed, hm, htarget⟩ := h.added hst hge
      rw [run_of_match hst hns hedges hm, run_of_match hst hns hfollowed hm]
      simp only [h.run_iff_of_lt hset howned htarget]

end Stages

end GrammarWalk.Network
