import GrammarWalk.Proofs.Network.Draft
import GrammarWalk.Proofs.Network.InRange
import GrammarWalk.Proofs.Safe

/-! The passes that derive return edges and links look up only states that are there, given that the
stream named existing states as the ends of blocks. -/

namespace GrammarWalk

/-- The state that ends a block, as the start of the block names it. -/
def StateKind.blockStop? : StateKind → Option Nat
  | blockStart _ stop _ => stop
  | _ => none

theorem StateKind.blockStop?_mapDecision {k : StateKind} {f : Decision → Decision} :
    (k.mapDecision f).blockStop? = k.blockStop? := by
  cases k <;> rfl

namespace Network

variable {net : Network}

/-- The ends of blocks are states of the network. -/
structure BlocksEnd (net : Network) : Prop where
  stop : ∀ {s : Nat} {st : State}, net.states[s]? = some st →
    ∀ t, st.kind.blockStop? = some t → t < net.states.size

theorem BlocksEnd.modify (h : net.BlocksEnd) {s : Nat} {f : State → State}
    (hf : ∀ st, net.states[s]? = some st → ∀ t, (f st).kind.blockStop? = some t →
      st.kind.blockStop? = some t) : (net.modify s f).BlocksEnd := by
  refine ⟨fun {i st} hi t ht => ?_⟩
  rw [size_modify]
  rw [getElem?_modify] at hi
  split at hi
  · subst s
    obtain ⟨old, hold, rfl⟩ := Option.map_eq_some_iff.1 hi
    exact h.stop hold t (hf old hold t ht)
  · exact h.stop hi t ht

theorem target_lt (h : net.Wired) {s : Nat} {st : State} (hs : net.states[s]? = some st) {e : Edge}
    (he : e ∈ st.edges) : e.target < net.states.size := ((h.within hs).edges e he).1

theorem returns_exitsToRuleStop (h : net.Wired) {s : Nat} {st : State}
    (hs : net.states[s]? = some st) : Returns (net.exitsToRuleStop st) fun _ => True := by
  unfold exitsToRuleStop
  split
  · exact returns_pure trivial
  rename_i last hlast
  refine (returns_state (target_lt h hs (List.mem_of_getLast? hlast))).bind fun out hout => ?_
  split
  · split
    · exact returns_pure trivial
    · rename_i e he
      exact (returns_state (target_lt h hout (List.mem_of_head? he))).bind fun _ _ =>
        returns_pure trivial
  · exact returns_pure trivial

theorem returns_addReturns {rs : List Return} :
    ∀ {net : Network}, net.Wired → net.BlocksEnd →
    (∀ r ∈ rs, r.follow < net.states.size) → Returns (net.addReturns rs) fun p =>
    p.2.BlocksEnd := by
  induction rs with
  | nil => exact fun _ hends _ => returns_pure hends
  | cons r rs ih =>
    intro net h hends hrs
    have added : Returns (net.addReturn r) fun p =>
        p.2.Wired ∧ p.2.BlocksEnd ∧ p.2.states.size = net.states.size := by
      unfold addReturn
      split
      · exact returns_pure ⟨h, hends, rfl⟩
      · rename_i stop hstop
        obtain ⟨st, hst, -⟩ := h.stop hstop
        refine (returns_state (lt_size hst)).bind fun _ _ => returns_pure ⟨?_, ?_, size_modify⟩
        · exact h.modify (h.respects_addEdge ⟨hrs r (by simp), nofun⟩)
        · exact hends.modify (f := (·.addEdge _)) fun _ _ _ ht => ht
    refine added.bind fun ⟨_, m⟩ ⟨hm, hends, hsize⟩ => ?_
    exact (ih hm hends fun r hr => hsize ▸ hrs r (by simp [hr])).bind fun _ h => returns_pure h

theorem returns_withReturnEdges (h : net.Wired) (hends : net.BlocksEnd) :
    Returns net.withReturnEdges fun p => p.2.BlocksEnd :=
  returns_addReturns h hends fun _ hr => follow_lt_of_mem_returns h hr

theorem safe_linkBlocks (h : net.Draft) (hends : net.BlocksEnd) :
    Safe net.linkBlocks fun _ => True := by
  refine (safe_foldlM (Q := fun m => m.Draft ∧ m.BlocksEnd ∧ m.states.size = net.states.size)
    (fun s hs m ⟨hm, hends, hsize⟩ => ?_) ⟨h, hends, rfl⟩).imp fun _ _ => trivial
  have linked : Safe (m.linkBlock s) fun m' => m'.BlocksEnd ∧ m'.states.size = m.states.size := by
    refine (returns_state (hsize ▸ List.mem_range.1 hs)).safe.bind fun st hst => ?_
    split
    · exact safe_defect
    · rename_i flavor stop d hk
      have hstop : stop < m.states.size := hends.stop hst stop (by rw [hk]; rfl)
      refine (returns_state hstop).safe.bind fun _ _ => ?_
      split
      · exact safe_pure ⟨hends.modify fun _ _ _ ht => (nomatch ht), size_modify⟩
      · exact safe_defect
      · exact safe_defect
    · exact safe_pure ⟨hends, rfl⟩
  exact (linked.and fun _ hm' => (linkBlock_keeps hm hm').1).imp fun _ hm' =>
    ⟨hm'.2, hm'.1.1, hm'.1.2.trans hsize⟩

theorem returns_linkLoops (h : net.Draft) : Returns net.linkLoops fun _ => True := by
  refine (returns_foldlM (Q := fun m => m.Draft ∧ m.states.size = net.states.size)
    (fun s hs m ⟨hm, hsize⟩ => ?_) ⟨h, rfl⟩).imp fun _ _ => trivial
  have close {es : List Edge} {f : State → State} (hf : ChangesLink f)
      (hes : ∀ e ∈ es, e.target < m.states.size) : Returns (es.foldlM (fun (m : Network) e => do
        let _ ← m.state e.target
        return m.modify e.target f) m) fun (m' : Network) => m'.Draft ∧
            m'.states.size = m.states.size := by
    refine returns_foldlM (Q := fun (m' : Network) => m'.Draft ∧ m'.states.size = m.states.size)
      (fun e he m' ⟨hm', hsize'⟩ => ?_) ⟨hm, rfl⟩
    exact (returns_state (hsize' ▸ hes e he)).bind fun _ _ =>
      returns_pure ⟨hm'.modify_link hf, size_modify.trans hsize'⟩
  refine Returns.imp (P := fun m' => m'.Draft ∧ m'.states.size = m.states.size) ?_
    fun m' hm' => ⟨hm'.1, hm'.2.trans hsize⟩
  refine (returns_state (hsize ▸ List.mem_range.1 hs)).bind fun st hst => ?_
  have htargets : ∀ e ∈ st.edges, e.target < m.states.size := fun e => target_lt hm.toWired hst
  dsimp only
  split
  · exact close (changesLink_closePlus s) htargets
  · exact close (changesLink_closeStar s) htargets
  · exact returns_pure ⟨hm, rfl⟩

theorem returns_markPrecedences (h : net.Draft) : Returns net.markPrecedences fun _ => True := by
  refine (returns_foldlM (Q := fun m => m.Draft ∧ m.states.size = net.states.size)
    (fun s hs m ⟨hm, hsize⟩ => ?_) ⟨h, rfl⟩).imp fun _ _ => trivial
  have marked : Returns (m.markPrecedence s) fun m' => m'.states.size = m.states.size := by
    refine (returns_state (hsize ▸ List.mem_range.1 hs)).bind fun st hst => ?_
    split
    · split
      · refine (returns_exitsToRuleStop hm.toWired hst).bind fun exits _ => ?_
        split
        · exact returns_pure size_modify
        · exact returns_pure rfl
      · exact returns_pure rfl
    · exact returns_pure rfl
  obtain ⟨m', hm', hsize'⟩ := marked
  exact ⟨m', hm', (markPrecedence_keeps hm hm').1, hsize'.trans hsize⟩

end Network

end GrammarWalk
