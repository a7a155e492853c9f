import GrammarWalk.Network.Explore
import GrammarWalk.Proofs.Network.InRange
import Mathlib.Algebra.BigOperators.Group.Finset.Basic
import Mathlib.Algebra.Order.BigOperators.Group.List
import Mathlib.Algebra.Order.Group.Nat
import Mathlib.Logic.Relation

/-! A search through states ends within its bound, since it takes each edge of a state once. If
nothing stops it, then it has come to every state that can be reached. -/

namespace GrammarWalk.Network

variable {next : Nat → Except Fault (Option (List Nat))}

section bound

/-- What a search has still to do: the states pending, and the edges of the states not yet seen. -/
def toDo (width : Nat → Nat) (n : Nat) (seen pending : List Nat) : Nat :=
  pending.length + ∑ s ∈ Finset.range n \ seen.toFinset, width s

theorem toDo_visit {width : Nat → Nat} {n : Nat} {seen pending targets : List Nat} {s : Nat}
    (hs : s < n) (hseen : s ∉ seen) (hw : targets.length ≤ width s) :
    toDo width n (s :: seen) (targets.reverse ++ pending) < toDo width n seen (s :: pending) := by
  have hmem : s ∈ Finset.range n \ seen.toFinset := by simp [hs, hseen]
  have hsum := Finset.add_sum_erase _ width hmem
  rw [← Finset.sdiff_insert, ← List.toFinset_cons] at hsum
  simp only [toDo, List.length_append, List.length_reverse, List.length_cons]
  omega

theorem returns_exploreAll (width : Nat → Nat) (n : Nat)
    (hnext : ∀ s < n, Returns (next s) fun found => ∀ targets, found = some targets →
      targets.length ≤ width s ∧ ∀ t ∈ targets, t < n) {fuel : Nat} :
    ∀ {seen pending : List Nat}, (∀ s ∈ pending, s < n) →
      toDo width n seen pending < fuel →
      Returns (exploreAll next fuel seen pending) fun _ => True := by
  induction fuel with
  | zero => exact fun _ h => nomatch h
  | succ fuel ih =>
    intro seen pending hp hfuel
    cases pending with
    | nil => exact returns_pure trivial
    | cons s pending =>
      obtain ⟨hs, hp⟩ := List.forall_mem_cons.1 hp
      unfold exploreAll
      split
      · refine ih hp (Nat.lt_of_succ_lt_succ ?_)
        simp only [toDo, List.length_cons] at hfuel ⊢
        omega
      · rename_i hseen
        refine (hnext s hs).bind fun found hfound => ?_
        cases found with
        | none => exact returns_pure trivial
        | some targets =>
          obtain ⟨hw, ht⟩ := hfound targets rfl
          have hless : toDo width n (s :: seen) (targets.reverse ++ pending) <
              toDo width n seen (s :: pending) := toDo_visit hs (by simpa using hseen) hw
          refine ih (fun t h => ?_) (by omega)
          rcases List.mem_append.1 h with h | h
          · exact ht t (List.mem_reverse.1 h)
          · exact hp t h

variable {net : Network}

theorem sum_edges_le {f : State → Nat}
    (hf : ∀ st : State, f st ≤ st.edges.length + st.followed.length) :
    ∑ s ∈ Finset.range net.states.size, (net.states[s]?.map f).getD 0 ≤ net.edgeCount := by
  have key (l : List State) : ∑ s ∈ Finset.range l.length, (l[s]?.map f).getD 0 =
      (l.map f).sum := by
    induction l with
    | nil => rfl
    | cons a l ih =>
      rw [List.length_cons, Finset.sum_range_succ', List.map_cons, List.sum_cons, add_comm]
      simpa using ih
  have hlist := key net.states.toList
  simp only [Array.length_toList, Array.getElem?_toList] at hlist
  rw [hlist, edgeCount]
  exact List.sum_le_sum fun st _ => hf st

theorem returns_search {view : State → List Edge} {start : Nat}
    (hview : ∀ st : State, (view st).length ≤ st.edges.length + st.followed.length)
    (hstart : start < net.states.size)
    (hnext : ∀ {s : Nat} {st : State}, net.states[s]? = some st →
      Returns (next s) fun found => ∀ targets, found = some targets →
      targets.length ≤ (view st).length ∧ ∀ t ∈ targets, t < net.states.size) :
    Returns (exploreAll next net.exploreBound [] [start]) fun _ => True := by
  let width (s : Nat) : Nat := (net.states[s]?.map fun st => (view st).length).getD 0
  refine returns_exploreAll width net.states.size (fun s hs => ?_) (by simpa using hstart) ?_
  · have hst := Array.getElem?_eq_getElem hs
    have hwidth : width s = (view net.states[s]).length := by simp only [width, hst]; rfl
    exact hwidth ▸ hnext hst
  · have hsum : ∑ s ∈ Finset.range net.states.size, width s ≤ net.edgeCount := sum_edges_le hview
    simp only [toDo, exploreBound, List.toFinset_nil, Finset.sdiff_empty, List.length_singleton]
    omega

end bound

/-- A state and those that follow it, as far as the search goes. -/
def Explored (next : Nat → Except Fault (Option (List Nat))) (s t : Nat) : Prop :=
  ∃ targets, next s = .ok (some targets) ∧ t ∈ targets

/-- Each state seen has given those that follow it, and these are seen or pending. -/
def Asked (next : Nat → Except Fault (Option (List Nat))) (seen pending : List Nat) : Prop :=
  ∀ s ∈ seen, ∃ targets, next s = .ok (some targets) ∧ ∀ t ∈ targets, t ∈ seen ∨ t ∈ pending

section asked

variable {seen pending targets : List Nat} {s t : Nat}

theorem mem_or_mem_of_seen (ht : t ∈ seen ∨ t ∈ s :: pending) (hs : s ∈ seen) :
    t ∈ seen ∨ t ∈ pending := by
  rcases ht with ht | ht
  · exact .inl ht
  · rcases List.mem_cons.1 ht with rfl | ht
    · exact .inl hs
    · exact .inr ht

theorem mem_or_mem_of_visit (ht : t ∈ seen ∨ t ∈ s :: pending) :
    t ∈ s :: seen ∨ t ∈ targets.reverse ++ pending := by
  rcases ht with ht | ht
  · exact .inl (List.mem_cons_of_mem _ ht)
  · rcases List.mem_cons.1 ht with rfl | ht
    · exact .inl List.mem_cons_self
    · exact .inr (List.mem_append_right _ ht)

theorem Asked.start : Asked next [] pending := nofun

theorem Asked.skip (h : Asked next seen (s :: pending)) (hs : s ∈ seen) : Asked next seen pending :=
  fun p hp => by
  obtain ⟨targets, hn, hin⟩ := h p hp
  exact ⟨targets, hn, fun t ht => mem_or_mem_of_seen (hin t ht) hs⟩

theorem Asked.visit (h : Asked next seen (s :: pending)) (hn : next s = .ok (some targets)) :
    Asked next (s :: seen) (targets.reverse ++ pending) := fun p hp => by
  rcases List.mem_cons.1 hp with rfl | hp
  · exact ⟨targets, hn, fun t ht => .inr (List.mem_append_left _ (List.mem_reverse.2 ht))⟩
  · obtain ⟨targets', hn', hin⟩ := h p hp
    exact ⟨targets', hn', fun t ht => mem_or_mem_of_visit (hin t ht)⟩

theorem Asked.mem_seen (h : Asked next seen []) (hs : s ∈ seen)
    (hst : Relation.ReflTransGen (Explored next) s t) : t ∈ seen := by
  induction hst with
  | refl => exact hs
  | tail _ hstep ih =>
    obtain ⟨targets, hn, ht⟩ := hstep
    obtain ⟨targets', hn', hin⟩ := h _ ih
    obtain rfl := Option.some.inj (Except.ok.inj (hn.symm.trans hn'))
    simpa using hin _ ht

end asked

theorem exploreAll_reaches {fuel s t : Nat} {seen pending : List Nat}
    (h : exploreAll next fuel seen pending = .ok true) (ha : Asked next seen pending)
    (hs : s ∈ seen ∨ s ∈ pending) (hst : Relation.ReflTransGen (Explored next) s t) :
    ∃ targets, next t = .ok (some targets) := by
  induction fuel generalizing seen pending with
  | zero => exact nomatch h
  | succ fuel ih =>
    cases pending with
    | nil =>
      obtain ⟨targets, hn, -⟩ := ha t (ha.mem_seen (by simpa using hs) hst)
      exact ⟨targets, hn⟩
    | cons p pending =>
      unfold exploreAll at h
      split at h
      · rename_i hp
        have hp : p ∈ seen := by simpa using hp
        exact ih h (ha.skip hp) (mem_or_mem_of_seen hs hp)
      · rw [bind_eq_ok] at h
        obtain ⟨found, hn, h⟩ := h
        cases found with
        | none => exact nomatch pure_eq_ok.1 h
        | some targets => exact ih h (ha.visit hn) (mem_or_mem_of_visit hs)

theorem exploreAll_stops {fuel : Nat} {seen pending : List Nat}
    (h : exploreAll next fuel seen pending = .ok false) :
    ∃ s ∈ pending, ∃ t, Relation.ReflTransGen (Explored next) s t ∧ next t = .ok none := by
  induction fuel generalizing seen pending with
  | zero => exact nomatch h
  | succ fuel ih =>
    cases pending with
    | nil => cases h
    | cons p pending =>
      unfold exploreAll at h
      split at h
      · obtain ⟨s, hs, hstop⟩ := ih h
        exact ⟨s, List.mem_cons_of_mem _ hs, hstop⟩
      · rw [bind_eq_ok] at h
        obtain ⟨found, hn, h⟩ := h
        cases found with
        | none => exact ⟨p, by simp, p, .refl, hn⟩
        | some targets =>
          obtain ⟨s, hs, t, hst, ht⟩ := ih h
          rcases List.mem_append.1 hs with hs | hs
          · exact ⟨p, by simp, t, .head ⟨targets, hn, List.mem_reverse.1 hs⟩ hst, ht⟩
          · exact ⟨s, List.mem_cons_of_mem _ hs, t, hst, ht⟩

end GrammarWalk.Network
