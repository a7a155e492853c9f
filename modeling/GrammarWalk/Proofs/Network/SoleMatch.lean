import GrammarWalk.Proofs.Network.Extension
import GrammarWalk.Proofs.Network.Passes

/-! The match found for a rule is the rule's only one. The search for it goes along single epsilon
edges and would go on past a rule stop; but then the rule neither matches nor calls, and no match
leads back into it. -/

namespace GrammarWalk.Network

variable {base net : Network} {s t z r start stop : Nat} {middle st : State} {m : Edge}
  {o : Option Nat}

section skips

/-- Where skipping comes to: along edges without a choice, unless it has run into a rule stop. -/
theorem skips_of_skipEpsilons {fuel : Nat} {seen : List Nat}
    (h : net.skipEpsilons fuel seen s = .ok middle) :
    ∃ t : Nat, net.states[t]? = some middle ∧
      (net.Skips s t ∨ ∃ (z : Nat) (stop : State), net.states[z]? = some stop ∧
      stop.isRuleStop = true ∧
        stop.followed.length = 1 ∧ net.Skips s z) := by
  induction fuel generalizing seen s with
  | zero => cases h
  | succ fuel ih =>
    simp only [skipEpsilons, bind_eq_ok, state_eq_ok] at h
    obtain ⟨st, hs, h⟩ := h
    split at h
    · rename_i target mark hf
      split at h
      · rename_i hgo
        rw [Bool.and_eq_true] at hgo
        obtain ⟨t, ht, hskips⟩ := ih h
        refine ⟨t, ht, ?_⟩
        cases hstop : st.isRuleStop with
        | true => exact .inr ⟨s, st, hs, hstop, by rw [hf]; rfl, .refl⟩
        | false =>
          have hop : net.Hop s target := ⟨st, mark, hs, hstop, hgo.1, hf⟩
          obtain hskips | ⟨z, stop, hz, hzstop, hone, hskips⟩ := hskips
          · exact .inl (.head hop hskips)
          · exact .inr ⟨z, stop, hz, hzstop, hone, .head hop hskips⟩
      · exact ⟨s, pure_eq_ok.1 h ▸ hs, .inl .refl⟩
    · exact ⟨s, pure_eq_ok.1 h ▸ hs, .inl .refl⟩

theorem of_soleMatch (h : net.soleMatch r start = .ok (some m)) :
    ∃ middle after stop o,
    net.skipEpsilons (net.states.size + 2) [] start = .ok middle ∧ middle.followed = [m] ∧
    m.isLabelled = true ∧ net.states[m.target]? = some after ∧ after.followed = [.epsilon stop o] ∧
    after.isSilent = true ∧ net.ruleStops[r]? = some stop := by
  simp only [soleMatch, bind_eq_ok] at h
  obtain ⟨middle, hmiddle, h⟩ := h
  split at h
  rotate_left
  · cases pure_eq_ok.1 h
  rename_i matched hf
  split at h
  rotate_left
  · cases pure_eq_ok.1 h
  rename_i hl
  simp only [bind_eq_ok, state_eq_ok] at h
  obtain ⟨after, hafter, h⟩ := h
  split at h
  rotate_left
  · cases pure_eq_ok.1 h
  rename_i target o hfa
  split at h
  rotate_left
  · cases pure_eq_ok.1 h
  rename_i hsil
  simp only [bind_eq_ok, Fault.ofLookup_eq_ok, pure_eq_ok] at h
  obtain ⟨stop, hstop, h⟩ := h
  split at h
  rotate_left
  · cases h
  rename_i htarget
  obtain rfl := Option.some.inj h
  exact ⟨middle, after, stop, o, hmiddle, hf, hl, hafter, htarget ▸ hfa, hsil, hstop⟩

theorem Hop.sees (h : net.Hop s t) (ho : net.Sees State.followed s o) :
    net.Sees State.followed t o := by
  obtain ⟨st, mark, hs, hns, -, hf⟩ := h
  rcases ho.first hs hns with ⟨-, e, he, hm⟩ | ⟨e, he, ho⟩
  · rw [hf, List.mem_singleton] at he
    subst he
    cases hm
  · rw [hf, List.mem_singleton] at he
    subst he
    exact ho

theorem Skips.sees (h : net.Skips s t) (ho : net.Sees State.followed s o) :
    net.Sees State.followed t o := by
  induction h with
  | refl => exact ho
  | tail _ hop ih => exact hop.sees ih

end skips

section seen

/-- From a state of `base` at least as much is seen along the lists that `net` follows as along the
raw lists. -/
def SeesAll (base net : Network) : Prop :=
  ∀ {s : Nat} {o : Option Nat}, s < base.states.size → base.Sees State.edges s o →
    net.Sees State.followed s o

variable (h : SeesAll base net) (hb : base.Wired) (hreach : base.ReachedFromStarts)
include h hb hreach

theorem SeesAll.sees_stop (hstart : base.ruleStarts[r]? = some start)
    (hstop : base.ruleStops[r]? = some stop) : net.Sees State.followed start (some stop) := by
  obtain ⟨sst, hsst, hst, hr⟩ := hb.stop hstop
  obtain ⟨start', hstart', hlead⟩ := hreach hsst hr
  obtain rfl := Option.some.inj (hstart.symm.trans hstart')
  obtain ⟨_, hs0, -⟩ := hb.start hstart
  exact h (lt_size hs0) (hlead.sees (.stop hsst hst))

theorem SeesAll.mute (hstart : base.ruleStarts[r]? = some start) (hskips : net.Skips start z)
    (hz : net.states[z]? = some st) (hstop : st.isRuleStop = true) : base.Mute r := by
  intro s st' hs hr hns e he
  cases hm : e.matchesOrCalls with
  | false => rfl
  | true =>
    obtain ⟨start', hstart', hlead⟩ := hreach hs hr
    obtain rfl := Option.some.inj (hstart.symm.trans hstart')
    obtain ⟨_, hs0, -⟩ := hb.start hstart
    have hsees := h (lt_size hs0) (hlead.sees (.input hs hns he hm))
    cases (hskips.sees hsees).of_stop hz hstop

/-- A match behind which an epsilon edge enters the stop of its rule is the rule's sole match. -/
theorem SeesAll.sole (hstart : base.ruleStarts[r]? = some start)
    (hstop : base.ruleStops[r]? = some stop) (ht : net.states[t]? = some middle)
    (hns : middle.isRuleStop = false) (hskips : net.Skips start t) (hf : middle.followed = [m])
    (hl : m.isLabelled = true) {after : State} (hafter : net.states[m.target]? = some after)
    (hfa : after.followed = [.epsilon stop o]) (hsil : after.isSilent = true) :
    net.Sole stop start m := by
  obtain ⟨-, hcall, -⟩ := Edge.of_isLabelled hl
  refine ⟨hl, ⟨t, middle, hskips, ht, hns, hf⟩, ?_⟩
  cases has : after.isRuleStop with
  | false => exact .inr ⟨after, o, hafter, has, hsil, hfa⟩
  | true =>
    refine .inl ?_
    rcases (hskips.sees (SeesAll.sees_stop h hb hreach hstart hstop)).first ht hns with ⟨hnone,
      -⟩ | ⟨e, he, ho⟩
    · cases hnone
    · rw [hf, List.mem_singleton] at he
      subst he
      rw [Edge.onward_of_call?_eq_none hcall] at ho
      exact (Option.some.inj (ho.of_stop hafter has)).symm

end seen

section found

variable (h : Extends base net)
include h

theorem Extends.ruleStarts_eq : net.ruleStarts = base.ruleStarts := by rw [h.tables]

theorem Extends.ruleStops_eq : net.ruleStops = base.ruleStops := by rw [h.tables]

/-- No match leads to a state from which an epsilon edge enters the stop of a mute rule. -/
theorem Extends.no_match_before_stop (hmute : base.Mute r) (hstop : net.ruleStops[r]? = some stop)
    (hs : net.states[s]? = some st) (hm : m ∈ st.followed) (hl : m.isLabelled = true)
    {after : State} (hafter : net.states[m.target]? = some after)
    (hf : .epsilon stop o ∈ after.followed) : False := by
  obtain ⟨sst, hsst, hst, hr⟩ := h.wired.stop hstop
  obtain ⟨-, -, hin⟩ := h.enters hmute hafter hf ((ownerOf_eq hsst).trans hr)
  have hrule : after.rule = some r := by
    refine hin.resolve_right fun hin => ?_
    obtain ⟨st', hst', hkind⟩ := h.wired.start hin
    obtain rfl := Option.some.inj (hsst.symm.trans hst')
    rw [State.isRuleStop, beq_iff_eq] at hst
    rw [State.isRuleStart, hst] at hkind
    cases hkind
  obtain ⟨hsil, hcall, -⟩ := Edge.of_isLabelled hl
  have hon : net.ownerOf m.onward = some r := by
    rw [Edge.onward_of_call?_eq_none hcall, ownerOf_eq hafter, hrule]
  rw [(h.enters hmute hs hm hon).1] at hsil
  cases hsil

theorem Extends.sole (hb : base.Wired) (hreach : base.ReachedFromStarts)
    (hstart : base.ruleStarts[r]? = some start) (hstop : base.ruleStops[r]? = some stop)
    (hm : net.soleMatch r start = .ok (some m)) : net.Sole stop start m := by
  have hstop' : net.ruleStops[r]? = some stop := h.ruleStops_eq ▸ hstop
  obtain ⟨middle, after, _, o, hmiddle, hf, hl, hafter, hfa, hsil, heq⟩ := of_soleMatch hm
  obtain rfl := Option.some.inj (hstop'.symm.trans heq)
  obtain ⟨t, ht, hskips | ⟨z, zst, hz, hzstop, -, hskips⟩⟩ := skips_of_skipEpsilons hmiddle
  · have hns : middle.isRuleStop = false := by
      cases hms : middle.isRuleStop with
      | false => rfl
      | true =>
        have hsilent := h.stops ht hms _ (hf ▸ List.mem_singleton.2 rfl)
        rw [(Edge.of_isLabelled hl).1] at hsilent
        cases hsilent
    exact SeesAll.sole h.sees hb hreach hstart hstop ht hns hskips hf hl hafter hfa hsil
  · have hmute : base.Mute r := SeesAll.mute h.sees hb hreach hstart hskips hz hzstop
    exact (h.no_match_before_stop (o := o) hmute hstop' ht (by simp [hf]) hl hafter
      (by simp [hfa])).elim

end found

end GrammarWalk.Network
