import GrammarWalk.Proofs.Parse.Moves
import GrammarWalk.Proofs.Tokens.Visible
import Mathlib.Algebra.Order.BigOperators.Group.Finset

/-! What the failures of a parse leave behind, and how far the parse is from one to the next. A
parse knows of its past failures where the last one was and to which ends of rules they recovered.
At a token that is no end of input no two failures recover to the same end of a rule, but for the
last one, which drops the token. -/

namespace GrammarWalk

/-- The end of the rule in which the failure happened. -/
def Network.recoversTo? (net : Network) (f : Failure) : Option Nat :=
  net.states[f.state]?.bind fun st => net.ruleStops[st.rule.getD 0]?

theorem Network.length_le_of_recoversTo {net : Network} {l : List Failure}
    (hl : (l.map net.recoversTo?).Nodup)
    (hstops : ∀ f ∈ l, ∃ stop ∈ net.ruleStops, net.recoversTo? f = some stop) :
    l.length ≤ net.ruleStops.size := by
  have hsub : l.map net.recoversTo? ⊆ net.ruleStops.toList.map some := by
    intro o ho
    obtain ⟨f, hf, rfl⟩ := List.mem_map.1 ho
    obtain ⟨stop, hstop, heq⟩ := hstops f hf
    exact List.mem_map.2 ⟨stop, by simpa using hstop, heq.symm⟩
  simpa using hl.length_le_of_subset hsub

namespace Tokens

theorem body_ofList_sublist (l : List Token) : (ofList l).body.toList.Sublist l := by
  by_cases hend : ∃ t, l.getLast? = some t ∧ t.isEnd = true
  · obtain ⟨t, hl, ht⟩ := hend
    rw [(ofList_of_end hl ht).1]
    exact List.dropLast_sublist l
  · rw [ofList_of_not_end fun t hl => by simpa using fun ht => hend ⟨t, hl, ht⟩]

theorem length_readable_le (l : List Token) :
    (ofList l).readable.length ≤ l.countP Token.isRead := by
  rw [List.countP_eq_length_filter]
  exact ((body_ofList_sublist l).filter _).length_le

end Tokens

namespace Walker

variable {w w' : Walker} {f : Failure} {i : Nat}

/-- Failure `f` is recorded, and `v` is the parse at the end of the rule in which it happened,
ready to look for a token to go on with. A token was dropped before if recovery was tried at this
token and for this end of a rule. Then tokens are passed over up to one that fits, which `w'`
stands at. -/
structure Recovers (w : Walker) (f : Failure) (v w' : Walker) : Prop where
  goesTo : w.net.recoversTo? f = some v.state
  isStop : v.state ∈ w.net.ruleStops
  failures : v.failures = w.failures ++ [f]
  lastErrorIndex : v.lastErrorIndex = some w.tokens.position
  errorStates : v.errorStates = w.errorStates.insert v.state
  tokens : v.tokens =
    if w.lastErrorIndex = some w.tokens.position ∧ v.state ∈ w.errorStates then w.tokens.advance
    else w.tokens
  seeks : ∃ recovery, v.recoverySet = .ok recovery ∧ skipTo recovery (v.tokens.size + 1) v = .ok w'

theorem fail_recovers (h : w.fail f = .ok w') : ∃ v, w.Recovers f v w' := by
  obtain ⟨st, stop, tree, hst, hstop, h⟩ := fail_eq_ok h
  have hgoes : w.net.recoversTo? f = some stop := by
    rw [Network.recoversTo?, hst, Option.bind_some, hstop]
  obtain ⟨u, v, recovery, hu, rfl, hset, hskip⟩ := recover_eq_ok h
  dsimp only at hu
  split at hu
  · rename_i hagain
    obtain ⟨tree, rfl⟩ := skipToken_eq_ok hu
    exact ⟨_, hgoes, Array.mem_of_getElem? hstop, rfl, rfl, rfl, (if_pos hagain).symm,
      recovery, hset, hskip⟩
  · rename_i hagain
    subst hu
    exact ⟨_, hgoes, Array.mem_of_getElem? hstop, rfl, rfl, rfl, (if_neg hagain).symm,
      recovery, hset, hskip⟩

theorem Recovers.sought {v : Walker} (h : w.Recovers f v w') :
    Smooth v w' ∧ w'.state = v.state := by
  obtain ⟨recovery, -, hskip⟩ := h.seeks
  refine ⟨smooth_skipTo hskip,
    skipTo_induction (P := fun u => u.state = v.state) (fun u u' hu hskip => ?_) rfl hskip⟩
  obtain ⟨tree, rfl⟩ := skipToken_eq_ok hskip
  exact hu

/-- What the parse notes of its failures is where the last one was, and to which ends of rules they
recovered. -/
structure Remembers (w : Walker) : Prop where
  lastErrorIndex : w.lastErrorIndex = w.failures.getLast?.map Failure.cursor
  errorStates : ∀ s, s ∈ w.errorStates ↔ ∃ f ∈ w.failures, w.net.recoversTo? f = some s

theorem remembers_start {net : Network} {tokens : Tokens} : ({ net, tokens } : Walker).Remembers :=
  ⟨rfl, fun s => by simp⟩

theorem Remembers.smooth (h : w.Remembers) (hw : Smooth w w') : w'.Remembers := by
  refine ⟨?_, fun s => ?_⟩
  · rw [hw.lastErrorIndex, hw.failures]
    exact h.lastErrorIndex
  · rw [hw.errorStates, hw.failures, hw.net]
    exact h.errorStates s

theorem Remembers.fail (h : w.Remembers) (hhere : w.FailsHere f) (hw : w.fail f = .ok w') :
    w'.Remembers := by
  obtain ⟨v, hv⟩ := fail_recovers hw
  have hseek := hv.sought.1
  refine ⟨?_, fun s => ?_⟩
  · rw [hseek.lastErrorIndex, hv.lastErrorIndex, failures_fail hw, List.getLast?_concat,
      Option.map_some, hhere.2]
  · rw [hseek.errorStates, hv.errorStates, failures_fail hw, (continues_fail hw).net,
      List.mem_insert_iff, h.errorStates]
    simp only [List.mem_append, List.mem_singleton, or_and_right, exists_or, exists_eq_left,
      hv.goesTo, Option.some.injEq, @eq_comm _ v.state s]
    exact or_comm

/-- The failures that happened at a token. -/
def failuresAt (w : Walker) (i : Nat) : List Failure := w.failures.filter (·.cursor = i)

theorem mem_failuresAt : f ∈ w.failuresAt i ↔ f ∈ w.failures ∧ f.cursor = i := by simp [failuresAt]

/-- The place is that of a token that is not an end of input. -/
def Holds (w : Walker) (i : Nat) : Prop := (w.tokens.get i).type ≠ Symbol.eof

/-- The failures of the parse are behind it. At a token that is no end of input they recover to
different ends of rules, but for the last failure if the parse has left the token. -/
structure Progresses (w : Walker) : Prop where
  ready : w.tokens.Ready
  isRead : ∀ f ∈ w.failures, w.tokens.IsRead f.cursor
  behind : ∀ f ∈ w.failures, f.cursor ≤ w.tokens.position
  latest : ∀ f ∈ w.failures, ∃ i, w.lastErrorIndex = some i ∧ f.cursor ≤ i ∧ i ≤ w.tokens.position
  isStop : ∀ f ∈ w.failures, ∃ stop ∈ w.net.ruleStops, w.net.recoversTo? f = some stop
  here : w.Holds w.tokens.position → ((w.failuresAt w.tokens.position).map w.net.recoversTo?).Nodup
  past : ∀ i, w.Holds i → ((w.failuresAt i).dropLast.map w.net.recoversTo?).Nodup

theorem progresses_start {net : Network} {l : List Token} :
    ({ net, tokens := .ofList l } : Walker).Progresses :=
  ⟨Tokens.ready_ofList l, nofun, nofun, nofun, nofun, fun _ => .nil, fun _ _ => .nil⟩

theorem Progresses.smooth (h : w.Progresses) (hw : Smooth w w') : w'.Progresses := by
  obtain ⟨k, hk⟩ := hw.tokens
  have hle : w.tokens.position ≤ w'.tokens.position := hk ▸ h.ready.le_iterate k
  have hat (i : Nat) : w'.failuresAt i = w.failuresAt i := by
    rw [failuresAt, hw.failures, failuresAt]
  have hholds (i : Nat) : w'.Holds i ↔ w.Holds i := by rw [Holds, hw.get, Holds]
  refine ⟨hk ▸ h.ready.iterate k, ?_, ?_, ?_, ?_, fun hi => ?_, fun i hi => ?_⟩
  · rw [hw.failures]
    exact fun f hf => hw.isRead.2 (h.isRead f hf)
  · rw [hw.failures]
    exact fun f hf => (h.behind f hf).trans hle
  · rw [hw.failures, hw.lastErrorIndex]
    intro f hf
    obtain ⟨i, hi, hfi, hip⟩ := h.latest f hf
    exact ⟨i, hi, hfi, hip.trans hle⟩
  · rw [hw.failures, hw.net]
    exact h.isStop
  · rw [hat, hw.net]
    obtain heq | hlt := Nat.eq_or_lt_of_le hle
    · rw [← heq] at hi ⊢
      exact h.here ((hholds _).1 hi)
    · -- no failure is ahead of the parse
      have hnone : w.failuresAt w'.tokens.position = [] := by
        refine List.eq_nil_iff_forall_not_mem.2 fun f hf => ?_
        obtain ⟨hmem, hcursor⟩ := mem_failuresAt.1 hf
        have := h.behind f hmem
        omega
      rw [hnone]
      exact .nil
  · rw [hat, hw.net]
    exact h.past i ((hholds i).1 hi)

theorem failuresAt_concat (h : w'.failures = w.failures ++ [f]) :
    w'.failuresAt i = if f.cursor = i then w.failuresAt i ++ [f] else w.failuresAt i := by
  rw [failuresAt, h, List.filter_append, List.filter_singleton]
  split <;> simp_all [failuresAt]

theorem Progresses.lt_fail (h : w.Progresses) (hm : w.Remembers) (hw : w.fail f = .ok w')
    (hp : w.Holds w.tokens.position)
    (hagain : ∃ g ∈ w.failuresAt w.tokens.position, w.net.recoversTo? g = w.net.recoversTo? f) :
    w.tokens.position < w'.tokens.position := by
  obtain ⟨v, hv⟩ := fail_recovers hw
  obtain ⟨g, hg, heq⟩ := hagain
  obtain ⟨hmem, hcursor⟩ := mem_failuresAt.1 hg
  have hlast : w.lastErrorIndex = some w.tokens.position := by
    obtain ⟨i, hi, hle, hle'⟩ := h.latest g hmem
    rw [hi, Nat.le_antisymm hle' (hcursor ▸ hle)]
  have htried : v.state ∈ w.errorStates := (hm.errorStates _).2 ⟨g, hmem, heq.trans hv.goesTo⟩
  have hdrop : v.tokens = w.tokens.advance := hv.tokens.trans (if_pos ⟨hlast, htried⟩)
  obtain ⟨k, hk⟩ := hv.sought.1.tokens
  calc w.tokens.position
    _ < w.tokens.advance.position := h.ready.lt_advance (mt Tokens.isEnd_iff.1 hp)
    _ ≤ (Tokens.advance^[k] w.tokens.advance).position := h.ready.advance.le_iterate k
    _ = w'.tokens.position := by rw [hk, hdrop]

theorem Recovers.iterate {v : Walker} (hv : w.Recovers f v w') :
    ∃ k, w'.tokens = Tokens.advance^[k] w.tokens := by
  obtain ⟨k, hk⟩ := hv.sought.1.tokens
  rw [hv.tokens] at hk
  split at hk
  · exact ⟨k + 1, hk⟩
  · exact ⟨k, hk⟩

theorem Progresses.fail (h : w.Progresses) (hm : w.Remembers) (hhere : w.FailsHere f)
    (hw : w.fail f = .ok w') : w'.Progresses := by
  obtain ⟨v, hv⟩ := fail_recovers hw
  obtain ⟨k, hk⟩ := hv.iterate
  have hcont := continues_fail hw
  have hfailures := failures_fail hw
  have hle : w.tokens.position ≤ w'.tokens.position := hk ▸ h.ready.le_iterate k
  have hlast : w'.lastErrorIndex = some w.tokens.position :=
    hv.sought.1.lastErrorIndex.trans hv.lastErrorIndex
  have hholds (i : Nat) : w'.Holds i ↔ w.Holds i := by rw [Holds, hcont.get, Holds]
  have hmem {P : Failure → Prop} (hold : ∀ g ∈ w.failures, P g) (hnew : P f) :
      ∀ g ∈ w'.failures, P g := by
    rw [hfailures]
    intro g hg
    obtain hg | rfl := by simpa using hg
    · exact hold g hg
    · exact hnew
  have hbehind : ∀ g ∈ w'.failures, g.cursor ≤ w.tokens.position :=
    hmem h.behind (Nat.le_of_eq hhere.2)
  refine ⟨hk ▸ h.ready.iterate k, hmem (fun g hg => hcont.isRead.2 (h.isRead g hg)) ?_, ?_, ?_, ?_,
    fun hi => ?_, fun i hi => ?_⟩
  · rw [hhere.2]
    exact hcont.isRead.2 h.ready.position
  · exact fun g hg => (hbehind g hg).trans hle
  · exact fun g hg => ⟨_, hlast, hbehind g hg, hle⟩
  · rw [hcont.net]
    exact hmem h.isStop ⟨_, hv.isStop, hv.goesTo⟩
  · rw [hcont.net]
    obtain heq | hlt := Nat.eq_or_lt_of_le hle
    · -- the token is not dropped, so this is the first failure to recover to this end of a rule
      rw [← heq] at hi ⊢
      rw [failuresAt_concat hfailures, if_pos hhere.2, List.map_append, List.nodup_append]
      refine ⟨h.here ((hholds _).1 hi), by simp, fun a ha b hb hab => ?_⟩
      obtain ⟨g, hg, rfl⟩ := List.mem_map.1 ha
      obtain rfl : b = w.net.recoversTo? f := by simpa using hb
      exact absurd heq (h.lt_fail hm hw ((hholds _).1 hi) ⟨g, hg, hab⟩).ne
    · have hnone : w'.failuresAt w'.tokens.position = [] := by
        refine List.eq_nil_iff_forall_not_mem.2 fun g hg => ?_
        obtain ⟨hg, hcursor⟩ := mem_failuresAt.1 hg
        have := hbehind g hg
        omega
      rw [hnone]
      exact .nil
  · rw [hcont.net, failuresAt_concat hfailures]
    split
    · rename_i hcursor
      obtain rfl : w.tokens.position = i := hhere.2.symm.trans hcursor
      rw [List.dropLast_concat]
      exact h.here ((hholds _).1 hi)
    · exact h.past i ((hholds i).1 hi)

theorem Progresses.length_failuresAt_le (h : w.Progresses) (hi : w.Holds i) :
    (w.failuresAt i).length ≤ w.net.ruleStops.size + 1 := by
  have hle : (w.failuresAt i).dropLast.length ≤ w.net.ruleStops.size :=
    Network.length_le_of_recoversTo (h.past i hi) fun g hg =>
      h.isStop g (mem_failuresAt.1 ((List.dropLast_sublist _).subset hg)).1
  rw [List.length_dropLast] at hle
  omega

/-- The failures at tokens that are no end of input are at most as many for each token to read. -/
theorem Progresses.countP_failures_le (h : w.Progresses) :
    w.failures.countP (fun f => (w.tokens.get f.cursor).type ≠ Symbol.eof) ≤
      (w.net.ruleStops.size + 1) * w.tokens.readable.length := by
  let places :=
    (w.failures.filter fun f => (w.tokens.get f.cursor).type ≠ Symbol.eof).map Failure.cursor
  have hplaces {i : Nat} (hi : i ∈ places.toFinset) : w.Holds i ∧ w.tokens.IsRead i := by
    obtain ⟨f, hf, rfl⟩ := List.mem_map.1 (List.mem_toFinset.1 hi)
    obtain ⟨hmem, hholds⟩ := List.mem_filter.1 hf
    exact ⟨(of_decide_eq_true hholds : (w.tokens.get f.cursor).type ≠ Symbol.eof), h.isRead f hmem⟩
  have hcount {i : Nat} (hi : i ∈ places.toFinset) : places.count i ≤ w.net.ruleStops.size + 1 := by
    refine le_trans ?_ (h.length_failuresAt_le (hplaces hi).1)
    rw [List.count_eq_countP, List.countP_map, List.countP_filter, failuresAt,
      ← List.countP_eq_length_filter]
    exact List.countP_mono_left fun f _ hf => by simp_all
  have hreads : places.toFinset.card ≤ w.tokens.readable.length := by
    rw [← Tokens.rank_lastIndex, Tokens.rank,
      ← List.toFinset_card_of_nodup (List.nodup_range.filter _)]
    refine Finset.card_le_card fun i hi => ?_
    obtain ⟨hholds, hread⟩ := hplaces hi
    have hlt : i < w.tokens.lastIndex := by
      refine lt_of_le_of_ne (Tokens.isRead_le hread) fun heq => hholds ?_
      rw [heq, Tokens.get_lastIndex, h.ready.last]
    simpa [hlt] using Tokens.isRead_get hread hlt
  calc w.failures.countP (fun f => (w.tokens.get f.cursor).type ≠ Symbol.eof)
    _ = places.length := by rw [List.countP_eq_length_filter, List.length_map]
    _ = ∑ i ∈ places.toFinset, places.count i := (List.sum_toFinset_count_eq_length places).symm
    _ ≤ ∑ _ ∈ places.toFinset, (w.net.ruleStops.size + 1) := Finset.sum_le_sum fun i hi => hcount hi
    _ = (w.net.ruleStops.size + 1) * places.toFinset.card := by
      rw [Finset.sum_const_nat fun _ _ => rfl, Nat.mul_comm]
    _ ≤ (w.net.ruleStops.size + 1) * w.tokens.readable.length := Nat.mul_le_mul_left _ hreads

end Walker

end GrammarWalk
