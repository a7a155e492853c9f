import GrammarWalk.Proofs.Network.TailCalls
import GrammarWalk.Proofs.Network.Language
import GrammarWalk.Proofs.Network.Sealed

/-! Trim networks, as they come from a grammar without left recursion: the rules are sealed, and
every state is on a way through its rule. -/

namespace GrammarWalk.Network

/-- Behind state `s`, up to the stop of its rule, there are epsilon edges only. -/
def EpsilonBehind (net : Network) (s : Nat) : Prop :=
  ∀ (t : Nat) (st : State), net.Leads State.edges s t → net.states[t]? = some st →
    st.isRuleStop = false →
    ∀ e ∈ st.edges, e.isEpsilon = true

/--
The rules are sealed, and each state belongs to one. Those of the first `n` states are reached from
the start of their rule and lead to its stop. No rule is a precedence rule. Nothing calls the rule
`root`, and the end of input is taken in this rule only, with nothing but epsilon edges behind.
-/
structure Trim (net : Network) (n root : Nat) : Prop extends Sealed net where
  owned : ∀ {s : Nat} {st : State}, net.states[s]? = some st → ∃ r, st.rule = some r ∧
    r < net.ruleStarts.size
  plain : ∀ r < net.ruleStarts.size, net.isPrecedenceRule r = false
  reached : ∀ {s r : Nat}, s < n → net.ownerOf s = some r →
    ∃ start, net.ruleStarts[r]? = some start ∧ net.Leads State.edges start s
  ends : ∀ {s r : Nat}, s < n → net.ownerOf s = some r →
    ∃ stop, net.ruleStops[r]? = some stop ∧ net.Leads State.edges s stop
  uncalled : ∀ {s : Nat} {st : State} {c : Call}, net.states[s]? = some st →
    .call c ∈ st.edges → c.rule ≠ root
  eof : ∀ {s : Nat} {st : State} {e : Edge}, net.states[s]? = some st → e ∈ st.edges →
    e.accepts Symbol.eof Symbol.minToken net.maxToken = true → st.rule = some root ∧
    net.EpsilonBehind e.target

variable {net : Network} {view : State → List Edge} {cost : Call → Nat} {lo hi : Int}
  {n s t r : Nat} {st : State} {w : List Int}

theorem Leads.eq_of_stop (h : net.Leads view s t) (hs : net.states[s]? = some st)
    (hstop : st.isRuleStop = true) : t = s := by
  obtain rfl | ⟨u, ⟨st', hs', hns, -⟩, -⟩ := Relation.ReflTransGen.cases_head h
  · rfl
  · rw [Option.some.inj (hs'.symm.trans hs), hstop] at hns
    cases hns

theorem EpsilonBehind.run (h : net.EpsilonBehind s) (hl : net.Leads State.edges s t)
    (ht : net.states[t]? = some st) (hstop : st.isRuleStop = true) :
    net.Run State.edges cost lo hi n s t [] := by
  have key {u : Nat} (hu : net.Leads State.edges u t) : net.EpsilonBehind u →
      net.Run State.edges cost lo hi n u t [] := by
    induction hu using Relation.ReflTransGen.head_induction_on with
    | refl => exact fun _ => .stop ht hstop
    | @head u v hstep _ ih =>
      intro h
      have hnext : net.EpsilonBehind v := fun t st hl => h t st (.head hstep hl)
      obtain ⟨ust, hust, hns, e, he, rfl⟩ := hstep
      have hepsilon := h u ust .refl hust hns e he
      obtain ⟨hsilent, hcall⟩ : e.isSilent = true ∧ e.call? = none := by
        cases e <;> first | exact ⟨rfl, rfl⟩ | cases hepsilon
      refine .silent hust hns he hsilent hcall ?_
      have hrun := ih hnext
      rwa [Edge.onward_of_call?_eq_none hcall] at hrun
  exact key hl h

/-- Where nothing but epsilon edges lies ahead, none but these are behind any state on the way. -/
theorem QuietAhead.epsilonBehind (h : net.QuietAhead State.edges s) : net.EpsilonBehind s := by
  have hops {t : Nat} (hl : net.Leads State.edges s t) :
      Relation.ReflTransGen (net.HopsTo State.edges) s t := by
    induction hl with
    | refl => exact .refl
    | @tail u v _ hstep ih =>
      obtain ⟨ust, hust, hns, e, he, rfl⟩ := hstep
      obtain ⟨st', hst', hstop | ⟨-, -, hall⟩⟩ := h u ih
      · rw [Option.some.inj (hst'.symm.trans hust), hns] at hstop
        cases hstop
      · obtain rfl := Option.some.inj (hst'.symm.trans hust)
        have hepsilon := hall e he
        refine ih.tail ⟨_, hust, hns, e, he, ?_⟩
        cases e <;> first | rfl | cases hepsilon
  intro t st hl hst hns e he
  obtain ⟨st', hst', hstop | ⟨-, -, hall⟩⟩ := h t (hops hl)
  · rw [Option.some.inj (hst'.symm.trans hst), hns] at hstop
    cases hstop
  · obtain rfl := Option.some.inj (hst'.symm.trans hst)
    exact hall e he

namespace Trim

variable {m root : Nat} (h : net.Trim n root)
include h

theorem ownerOf_onward (hon : net.Onward State.edges s t) : net.ownerOf t = net.ownerOf s := by
  obtain ⟨st, hst, hns, e, he, rfl⟩ := hon
  rw [(h.inside hst hns he).1, ownerOf_eq hst]

theorem ownerOf_leads (hl : net.Leads State.edges s t) : net.ownerOf t = net.ownerOf s := by
  induction hl with
  | refl => rfl
  | tail _ hon ih => rw [h.ownerOf_onward hon, ih]

/-- More states may count among the first if they, too, lie between the start and the stop of a
rule. -/
theorem extend (hmore : ∀ s, n ≤ s → s < m → ∃ r start stop : Nat, net.ruleStarts[r]? = some start ∧
    net.ruleStops[r]? = some stop ∧ net.Leads State.edges start s ∧ net.Leads State.edges s stop) :
    net.Trim m root := by
  have between {s r : Nat} (hge : n ≤ s) (hlt : s < m) (howner : net.ownerOf s = some r) :
      ∃ start stop : Nat,
      net.ruleStarts[r]? = some start ∧ net.ruleStops[r]? = some stop ∧
      net.Leads State.edges start s ∧
      net.Leads State.edges s stop := by
    obtain ⟨r', start, stop, hstart, hstop, hfrom, hto⟩ := hmore s hge hlt
    have hsame := h.ownerOf_leads hfrom
    rw [howner, h.start hstart] at hsame
    obtain rfl := Option.some.inj hsame
    exact ⟨start, stop, hstart, hstop, hfrom, hto⟩
  refine { h with reached := fun {s r} hlt howner => ?_, ends := fun {s r} hlt howner => ?_ }
  · obtain hold | hge := Nat.lt_or_ge s n
    · exact h.reached hold howner
    · obtain ⟨start, _, hstart, -, hfrom, -⟩ := between hge hlt howner
      exact ⟨start, hstart, hfrom⟩
  · obtain hold | hge := Nat.lt_or_ge s n
    · exact h.ends hold howner
    · obtain ⟨_, stop, -, hstop, -, hto⟩ := between hge hlt howner
      exact ⟨stop, hstop, hto⟩

end Trim

section checks

/-- So many edges onward, or fewer, lead from `s` to `t`. -/
def reaches (net : Network) : Nat → Nat → Nat → Bool
  | 0, s, t => s == t
  | k + 1, s, t => s == t ||
    net.states[s]?.any fun st => !st.isRuleStop && st.edges.any fun e => net.reaches k e.onward t

theorem leads_of_reaches {k : Nat} :
    ∀ {s : Nat}, net.reaches k s t = true → net.Leads State.edges s t := by
  induction k with
  | zero =>
    intro s h
    obtain rfl := eq_of_beq h
    exact .refl
  | succ k ih =>
    intro s h
    rw [reaches, Bool.or_eq_true, Option.any_eq_true] at h
    obtain heq | ⟨st, hst, h⟩ := h
    · obtain rfl := eq_of_beq heq
      exact .refl
    · simp only [Bool.and_eq_true, Bool.not_eq_true', List.any_eq_true] at h
      obtain ⟨hns, e, he, hon⟩ := h
      exact .head ⟨st, hst, hns, e, he, rfl⟩ (ih hon)

/-- What makes a network trim, where `quiet` lists the states behind an end of input. -/
def TrimWith (net : Network) (n root : Nat) (quiet : List Nat) : Prop :=
  net.Sealed ∧ (∀ st ∈ net.states.toList, ∃ r ∈ st.rule, r < net.ruleStarts.size) ∧
    (∀ r < net.ruleStarts.size, net.isPrecedenceRule r = false) ∧
    (∀ s < n, ∀ r ∈ net.ownerOf s, (∃ start ∈ net.ruleStarts[r]?, net.reaches n start s = true) ∧
      ∃ stop ∈ net.ruleStops[r]?, net.reaches n s stop = true) ∧
    (∀ st ∈ net.states.toList, ∀ e ∈ st.edges, ∀ c ∈ e.call?, c.rule ≠ root) ∧
    (∀ s ∈ quiet, ∀ st ∈ net.states[s]?, st.isRuleStop = false → ∀ e ∈ st.edges,
    e.isEpsilon = true ∧ e.onward ∈ quiet) ∧
    ∀ st ∈ net.states.toList, ∀ e ∈ st.edges, e.accepts Symbol.eof Symbol.minToken net.maxToken =
    true →
      st.rule = some root ∧ e.target ∈ quiet

instance (net : Network) (n root : Nat) (quiet : List Nat) :
    Decidable (net.TrimWith n root quiet) := by
  unfold TrimWith
  infer_instance

theorem TrimWith.trim {root : Nat} {quiet : List Nat} (h : net.TrimWith n root quiet) :
    net.Trim n root := by
  obtain ⟨hseal, howned, hplain, hthrough, huncalled, hquiet, heof⟩ := h
  have listed {s : Nat} {st : State} (hst : net.states[s]? = some st) : st ∈ net.states.toList :=
    Array.mem_toList_iff.2 (Array.mem_of_getElem? hst)
  have behind {s t : Nat} (hs : s ∈ quiet) (hl : net.Leads State.edges s t) : t ∈ quiet := by
    induction hl with
    | refl => exact hs
    | tail _ hon ih =>
      obtain ⟨st, hst, hns, e, he, rfl⟩ := hon
      exact (hquiet _ ih st hst hns e he).2
  refine { hseal with
    owned := fun hst => howned _ (listed hst), plain := hplain, reached := fun hs howner => ?_
    ends := fun hs howner => ?_
    uncalled := fun hst hc => huncalled _ (listed hst) _ hc _ rfl, eof := fun hst he ha => ?_ }
  · obtain ⟨⟨start, hstart, hreach⟩, -⟩ := hthrough _ hs _ howner
    exact ⟨start, hstart, leads_of_reaches hreach⟩
  · obtain ⟨-, stop, hstop, hreach⟩ := hthrough _ hs _ howner
    exact ⟨stop, hstop, leads_of_reaches hreach⟩
  · obtain ⟨hroot, htarget⟩ := heof _ (listed hst) _ he ha
    exact ⟨hroot, fun t st hl hst hns e he => (hquiet t (behind htarget hl) st hst hns e he).1⟩

end checks

end GrammarWalk.Network
