import GrammarWalk.Network.Splice
import GrammarWalk.Proofs.Network.InRange
import Mathlib.Data.Finset.Card
import Mathlib.Logic.Relation

/-! States that do nothing but pass on, and how many of them lie behind a state. -/

namespace GrammarWalk.Network

open Classical

/-- The state is one that does nothing but pass on along epsilon edges. -/
def Passes (net : Network) (s : Nat) : Prop := ∃ st, net.states[s]? = some st ∧ passesOn st = true

def PassHop (net : Network) (s t : Nat) : Prop :=
  net.Passes t ∧ ∃ st, net.states[s]? = some st ∧ passesOn st = true ∧
    ∃ e ∈ st.followed, e.target = t

/-- How many states that pass on lie behind a state, itself included; none if it does not pass
on. -/
noncomputable def behind (net : Network) (s : Nat) : Nat :=
  if net.Passes s then
    ((Finset.range net.states.size).filter fun t => Relation.ReflTransGen net.PassHop s t).card
  else 0

variable {net net' : Network} {s t : Nat} {st : State}

theorem behind_of_not_passes (h : ¬ net.Passes s) : net.behind s = 0 := if_neg h

theorem Passes.lt_size (h : net.Passes s) : s < net.states.size := by
  obtain ⟨st, hst, -⟩ := h
  exact Network.lt_size hst

theorem passes_of_reaches (hs : net.Passes s) (h : Relation.ReflTransGen net.PassHop s t) :
    net.Passes t := by
  obtain rfl | ⟨_, -, hstep⟩ := h.cases_tail
  · exact hs
  · exact hstep.1

/-- Less lies behind the targets of a state that passes on and is on no cycle of such states. -/
theorem behind_lt (hs : net.states[s]? = some st) (hp : passesOn st = true)
    (hcycle : ¬ Relation.TransGen net.PassHop s s) {e : Edge} (he : e ∈ st.followed) :
    net.behind e.target < net.behind s := by
  have hps : net.Passes s := ⟨st, hs, hp⟩
  rw [behind, behind, if_pos hps]
  split
  · rename_i hpt
    have hstep : net.PassHop s e.target := ⟨hpt, st, hs, hp, e, he, rfl⟩
    refine Finset.card_lt_card ⟨fun t ht => ?_, fun hsub => ?_⟩
    · rw [Finset.mem_filter] at ht ⊢
      exact ⟨ht.1, .head hstep ht.2⟩
    · have hself := hsub (Finset.mem_filter.2 ⟨Finset.mem_range.2 (Network.lt_size hs), .refl⟩)
      exact hcycle (.head' hstep (Finset.mem_filter.1 hself).2)
  · refine Finset.card_pos.2
      ⟨s, Finset.mem_filter.2 ⟨Finset.mem_range.2 (Network.lt_size hs), .refl⟩⟩

/-- No more lies behind a state of `net'` than of `net`: the same states pass on, along paths there
were. -/
structure Shallower (net' net : Network) : Prop where
  passes : ∀ {s : Nat}, net'.Passes s ↔ net.Passes s
  hop : ∀ {s t : Nat}, net'.PassHop s t → Relation.TransGen net.PassHop s t

theorem Shallower.behind_le (h : Shallower net' net) (s : Nat) : net'.behind s ≤ net.behind s := by
  rw [behind, behind]
  by_cases hs : net.Passes s
  · rw [if_pos hs, if_pos (h.passes.2 hs)]
    refine Finset.card_le_card fun t ht => ?_
    rw [Finset.mem_filter] at ht ⊢
    have hreach : Relation.ReflTransGen net.PassHop s t := by
      obtain ⟨-, ht⟩ := ht
      induction ht with
      | refl => exact .refl
      | tail _ hstep ih => exact ih.trans (h.hop hstep).to_reflTransGen
    exact ⟨Finset.mem_range.2 (passes_of_reaches hs hreach).lt_size, hreach⟩
  · rw [if_neg (fun h' => hs (h.passes.1 h'))]
    exact Nat.zero_le _

end GrammarWalk.Network
