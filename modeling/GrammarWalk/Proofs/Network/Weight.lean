import GrammarWalk.Proofs.Network.Passing
import Mathlib.Algebra.BigOperators.Group.List.Basic
import Mathlib.Data.Multiset.DershowitzManna

/-! What an optimization uses up. Inlining takes away edges that are silent without being plain.
Splicing replaces an edge into a state that passes on by edges into states with less behind them, so
the multiset of what lies behind the silent edges gets smaller. -/

namespace Multiset

variable {α : Type}

theorem IsDershowitzMannaLT.add_left [Preorder α] {M N P : Multiset α}
    (h : IsDershowitzMannaLT M N) : IsDershowitzMannaLT (P + M) (P + N) := by
  obtain ⟨X, Y, Z, hZ, rfl, rfl, hlt⟩ := h
  exact ⟨P + X, Y, Z, hZ, by rw [add_assoc], by rw [add_assoc], hlt⟩

theorem IsDershowitzMannaLT.add_right [Preorder α] {M N P : Multiset α}
    (h : IsDershowitzMannaLT M N) : IsDershowitzMannaLT (M + P) (N + P) := by
  rw [add_comm M, add_comm N]
  exact h.add_left

theorem map_eq_or_lt {β : Type} [PartialOrder β] {f g : α → β} (h : ∀ a, f a ≤ g a)
    (s : Multiset α) : s.map f = s.map g ∨ IsDershowitzMannaLT (s.map f) (s.map g) := by
  induction s using Multiset.induction with
  | empty => exact .inl rfl
  | cons a s ih =>
    rw [map_cons, map_cons]
    obtain ha | ha := (h a).eq_or_lt
    · rw [ha, ← singleton_add, ← singleton_add]
      exact ih.imp (congrArg _) .add_left
    · right
      obtain heq | ⟨X, Y, Z, -, hX, hZ, hlt⟩ := ih
      · exact ⟨s.map g, {f a}, {g a}, singleton_ne_zero _, by rw [heq, add_comm, singleton_add],
          by rw [add_comm, singleton_add], by simpa using ha⟩
      · refine ⟨X, f a ::ₘ Y, g a ::ₘ Z, cons_ne_zero, by rw [hX, add_cons], by rw [hZ, add_cons],
          ?_⟩
        intro y hy
        obtain rfl | hy := mem_cons.1 hy
        · exact ⟨g a, mem_cons_self _ _, ha⟩
        · obtain ⟨z, hz, hyz⟩ := hlt y hy
          exact ⟨z, mem_cons_of_mem hz, hyz⟩

end Multiset

namespace GrammarWalk.Network

open Multiset (IsDershowitzMannaLT)

variable {net net' : Network} {s t : Nat} {st : State}

section total

variable {M : Type} [AddCommMonoid M] {g : State → M}

def total (g : State → M) (net : Network) : M := (net.states.toList.map g).sum

theorem total_modify (h : net.states[s]? = some st) : ∃ rest, total g net = rest + g st ∧
    ∀ f : State → State, total g (net.modify s f) = rest + g (f st) := by
  have key : ∀ {l : List State} {s : Nat}, l[s]? = some st → ∃ rest, (l.map g).sum = rest + g st ∧
      ∀ f : State → State, ((l.modify s f).map g).sum = rest + g (f st) := by
    intro l
    induction l with
    | nil => exact fun h => nomatch h
    | cons a l ih =>
      intro s h
      cases s with
      | zero =>
        obtain rfl := Option.some.inj h
        refine ⟨(l.map g).sum, by rw [List.map_cons, List.sum_cons, add_comm], fun f => ?_⟩
        rw [List.modify_zero_cons, List.map_cons, List.sum_cons, add_comm]
      | succ s =>
        obtain ⟨rest, hl, hf⟩ := ih (s := s) h
        refine ⟨g a + rest, by rw [List.map_cons, List.sum_cons, hl, add_assoc], fun f => ?_⟩
        rw [List.modify_succ_cons, List.map_cons, List.sum_cons, hf, add_assoc]
  obtain ⟨rest, hl, hf⟩ := key (l := net.states.toList) (by simpa using h)
  refine ⟨rest, hl, fun f => ?_⟩
  rw [total, modify, Array.toList_modify]
  exact hf f

end total

/-- The edge takes no input, without being plain. -/
def isMarked (e : Edge) : Bool := e.isSilent && !e.isPlain

/-- The number of silent edges that are not plain. -/
def marked (net : Network) : Nat := total (fun st => st.followed.countP isMarked) net

def weights (rank : Nat → Nat) (es : List Edge) : Multiset Nat :=
  (es.filter Edge.isSilent).map fun e => rank e.target

noncomputable def weight (net : Network) : Multiset Nat :=
  total (fun st => weights net.behind st.followed) net

section weights

variable {rank : Nat → Nat} {es es' : List Edge}

theorem weights_append : weights rank (es ++ es') = weights rank es + weights rank es' := by
  simp [weights]

theorem weights_cons (e : Edge) (es : List Edge) :
    weights rank (e :: es) = weights rank [e] + weights rank es := by
  rw [← weights_append, List.singleton_append]

theorem weights_perm (h : es.Perm es') : weights rank es = weights rank es' :=
  Multiset.coe_eq_coe.2 ((h.filter _).map _)

theorem weights_silent {e : Edge} (h : e.isSilent = true) : weights rank [e] = {rank e.target} := by
  simp [weights, h]

end weights

/-- `net'` has fewer silent edges that are not plain, or as many and less behind its silent
edges. -/
def Smaller (net' net : Network) : Prop :=
  Prod.Lex (· < ·) IsDershowitzMannaLT (net'.marked, net'.weight) (net.marked, net.weight)

theorem wellFounded_smaller : WellFounded Smaller :=
  InvImage.wf (fun net : Network => (net.marked, net.weight))
    (wellFounded_lt.prod_lex Multiset.wellFounded_isDershowitzMannaLT)

theorem Smaller.trans {a b c : Network} (h : Smaller a b) (h' : Smaller b c) : Smaller a c := by
  rw [Smaller, Prod.lex_def] at h h' ⊢
  obtain h | ⟨he, h⟩ := h <;> obtain h' | ⟨he', h'⟩ := h'
  · exact .inl (Nat.lt_trans h h')
  · exact .inl (he' ▸ h)
  · exact .inl (he ▸ h')
  · exact .inr ⟨he.trans he', h.trans h'⟩

theorem Smaller.of_marked (h : net'.marked < net.marked) : Smaller net' net := .left _ _ h

theorem total_weights_eq_map (rank : Nat → Nat) :
    total (fun st => weights rank st.followed) net =
      (total (fun st => weights id st.followed) net).map rank := by
  rw [total, total, ← Multiset.coe_mapAddMonoidHom, map_list_sum, List.map_map]
  congr 2
  funext st
  simp [weights, Function.comp_def]

theorem total_weights_le {rank rank' : Nat → Nat} (h : ∀ s, rank' s ≤ rank s) :
    total (fun st => weights rank' st.followed) net =
      total (fun st => weights rank st.followed) net ∨
      IsDershowitzMannaLT (total (fun st => weights rank' st.followed) net)
        (total (fun st => weights rank st.followed) net) := by
  rw [total_weights_eq_map rank, total_weights_eq_map rank']
  exact Multiset.map_eq_or_lt h _

/-- With as many marked edges, a network is smaller if no more lies behind its states, and if
already by the old ranks it has less weight. -/
theorem Smaller.of_weight (hm : net'.marked = net.marked) (hs : Shallower net' net)
    (hw : IsDershowitzMannaLT (total (fun st => weights net.behind st.followed) net') net.weight) :
    Smaller net' net := by
  rw [Smaller, hm]
  refine .right _ ?_
  obtain h | h := @total_weights_le net' _ _ hs.behind_le
  · rw [weight, h]
    exact hw
  · exact h.trans hw

end GrammarWalk.Network
