import GrammarWalk.Proofs.Network.Explore
import GrammarWalk.Proofs.Network.Rewrite
import Mathlib.Algebra.Order.BigOperators.Group.List
import Mathlib.Algebra.Order.Group.Nat

/-! The search for silent cycles gives an answer, and what it clears can be spliced. -/

namespace GrammarWalk.Network

variable {net : Network} {s t start : Nat} {st : State} {es : List Edge}

theorem returns_passingTargets (hes : ∀ e ∈ es, e.target < net.states.size) :
    Returns (net.passingTargets start es) fun found => ∀ targets, found = some targets →
      targets.length ≤ es.length ∧ (∀ t ∈ targets, t < net.states.size) ∧
      ∀ e ∈ es, e.target ≠ start ∧ (net.Passes e.target → e.target ∈ targets) := by
  induction es with
  | nil => exact returns_pure fun targets h => by obtain rfl := Option.some.inj h; simp
  | cons e es ih =>
    obtain ⟨he, hes⟩ := List.forall_mem_cons.1 hes
    unfold passingTargets
    split
    · exact returns_pure nofun
    · rename_i hne
      refine (returns_state he).bind fun st hst => (ih hes).bind fun rest hrest => returns_pure ?_
      intro targets htargets
      obtain ⟨ts, rfl, rfl⟩ := Option.map_eq_some_iff.1 htargets
      obtain ⟨hlen, hlt, hall⟩ := hrest ts rfl
      have hpass (hp : net.Passes e.target) : passesOn st = true := by
        obtain ⟨st', hst', hp⟩ := hp
        exact Option.some.inj (hst'.symm.trans hst) ▸ hp
      split
      · refine ⟨by simpa using hlen, ?_, ?_⟩
        · exact List.forall_mem_cons.2 ⟨he, hlt⟩
        · refine List.forall_mem_cons.2 ⟨⟨hne, fun _ => by simp⟩, fun e' he' => ?_⟩
          exact (hall e' he').imp_right fun h hp => List.mem_cons_of_mem _ (h hp)
      · rename_i hn
        refine ⟨Nat.le_succ_of_le hlen, hlt, ?_⟩
        exact List.forall_mem_cons.2 ⟨⟨hne, fun hp => absurd (hpass hp) hn⟩, hall⟩

/-- What the search for a cycle through `start` finds at state `s`. -/
def passingNext (net : Network) (start s : Nat) : Except Fault (Option (List Nat)) := do
  net.passingTargets start (← net.state s).followed

theorem onSilentCycle_eq : net.onSilentCycle start = (do
    return !(← exploreAll (net.passingNext start) net.exploreBound [] [start])) := rfl

theorem returns_passingNext (h : net.InRange) (hst : net.states[s]? = some st) :
    Returns (net.passingNext start s) fun found => ∀ targets, found = some targets →
      targets.length ≤ st.followed.length ∧ (∀ t ∈ targets, t < net.states.size) ∧
      ∀ e ∈ st.followed, e.target ≠ start ∧ (net.Passes e.target → e.target ∈ targets) := by
  rw [passingNext, state_eq_ok.2 hst]
  exact returns_passingTargets fun e he => h.target_lt hst he

theorem passingNext_of_hop {targets : List Nat} (h : net.InRange)
    (hn : net.passingNext start s = .ok (some targets)) (hop : net.PassHop s t) :
    t ≠ start ∧ t ∈ targets := by
  obtain ⟨hp, st, hst, -, e, he, rfl⟩ := hop
  obtain ⟨found, hn', hfound⟩ := returns_passingNext h hst
  obtain rfl := Except.ok.inj (hn.symm.trans hn')
  obtain ⟨-, -, hedges⟩ := hfound targets rfl
  exact (hedges e he).imp_right fun hmem => hmem hp

theorem returns_onSilentCycle (h : net.InRange) (hs : start < net.states.size) :
    Returns (net.onSilentCycle start) fun cycle =>
      cycle = false → ¬ Relation.TransGen net.PassHop start start := by
  have hsearch : Returns (exploreAll (net.passingNext start) net.exploreBound [] [start])
      fun _ => True :=
    returns_search (fun _ => Nat.le_add_left _ _) hs fun hst => (returns_passingNext h hst).imp
      fun _ hfound targets ht => (hfound targets ht).imp_right And.left
  obtain ⟨answer, hanswer, -⟩ := hsearch
  refine ⟨!answer, by rw [onSilentCycle_eq, hanswer]; rfl, fun hclear hcycle => ?_⟩
  obtain rfl : answer = true := by simpa using hclear
  have hasked {t : Nat} (ht : Relation.ReflTransGen (Explored (net.passingNext start)) start t) :=
    exploreAll_reaches hanswer .start (.inr List.mem_cons_self) ht
  -- Each state on a cycle through `start` is explored, so the edge that closes it would have been
  -- seen.
  have hexplored {t : Nat} (ht : Relation.ReflTransGen net.PassHop start t) :
      Relation.ReflTransGen (Explored (net.passingNext start)) start t := by
    induction ht with
    | refl => exact .refl
    | tail _ hop ih =>
      obtain ⟨targets, hn⟩ := hasked ih
      exact ih.tail ⟨targets, hn, (passingNext_of_hop h hn hop).2⟩
  obtain ⟨t, ht, hop⟩ := Relation.TransGen.tail'_iff.1 hcycle
  obtain ⟨targets, hn⟩ := hasked (hexplored ht)
  exact (passingNext_of_hop h hn hop).1 rfl

end GrammarWalk.Network
