import GrammarWalk.Proofs.Network.Fixpoint
import GrammarWalk.Proofs.Network.SoleMatch

/-! The mark for the end of a rule stands in look-ahead sets only: no edge accepts it as a symbol.
An optimization makes its matches of those that there are, so it keeps to that. -/

namespace GrammarWalk

open Network

/-- Over the types of tokens, the edge does not accept the mark for the end of a rule. -/
def Edge.Unmarked (e : Edge) : Prop := ∀ hi, e.accepts Symbol.ruleEnd Symbol.minToken hi = false

namespace Edge

variable {e : Edge} {t : Nat}

theorem unmarked_of_isSilent (h : e.isSilent = true) : e.Unmarked := by
  intro hi
  cases e <;> first | rfl | cases h

theorem unmarked_plain : (plain t).Unmarked := unmarked_of_isSilent rfl

theorem Unmarked.retarget (h : e.Unmarked) (t : Nat) : (e.retarget t).Unmarked := by
  cases e <;> exact h

theorem unmarked_atom {symbol : Int} (h : symbol ≠ Symbol.ruleEnd) : (atom t symbol).Unmarked :=
  fun _ => beq_false_of_ne h

theorem unmarked_range {lo hi : Int} (h : Symbol.ruleEnd < lo) : (range t lo hi).Unmarked :=
  fun _ => by
  simp [accepts, Int.not_le.2 h]

theorem unmarked_set {symbols : SymbolSet} (h : Symbol.ruleEnd ∉ symbols) :
    (set t symbols).Unmarked :=
  fun _ => Bool.eq_false_iff.2 h

theorem unmarked_of_minToken (h : ∀ v lo hi, e.accepts v lo hi = true → lo ≤ v) : e.Unmarked :=
  fun hi => by
  refine Bool.eq_false_iff.2 fun hmark => ?_
  have hlow : Symbol.minToken ≤ Symbol.ruleEnd := h _ _ hi hmark
  exact absurd hlow (by decide)

theorem unmarked_notSet {symbols : SymbolSet} : (notSet t symbols).Unmarked :=
  unmarked_of_minToken fun v lo hi h => by
    simp only [accepts, Bool.and_eq_true, decide_eq_true_eq] at h
    exact h.1.1

theorem unmarked_wildcard : (wildcard t).Unmarked :=
  unmarked_of_minToken fun v lo hi h => by
    simp only [accepts, Bool.and_eq_true, decide_eq_true_eq] at h
    exact h.1

theorem unmarked_of_accepts (es : List Edge) (hes : ∀ e ∈ es, e.Unmarked)
    (h : ∀ v lo hi, e.accepts v lo hi = true → ∃ e' ∈ es, e'.accepts v lo hi = true) : e.Unmarked :=
  fun hi => by
  refine Bool.eq_false_iff.2 fun hmark => ?_
  obtain ⟨e', he', hmark⟩ := h _ _ _ hmark
  rw [hes e' he'] at hmark
  cases hmark

end Edge

/-- No edge of the state accepts the mark, in either of its lists. -/
structure State.Unmarked (st : State) : Prop where
  edges : ∀ e ∈ st.edges, e.Unmarked
  optimized : ∀ es, st.optimized = some es → ∀ e ∈ es, e.Unmarked

theorem State.Unmarked.followed {st : State} (h : st.Unmarked) : ∀ e ∈ st.followed, e.Unmarked := by
  unfold State.followed
  cases ho : st.optimized with
  | none => exact h.edges
  | some es => exact h.optimized es ho

namespace Network

variable {net net' : Network} {s : Nat} {st : State} {e m : Edge} {es : List Edge}
  {sole : List (Option Edge)}

/-- No edge of the network accepts the mark for the end of a rule. -/
structure Unmarked (net : Network) : Prop where
  state : ∀ {s : Nat} {st : State}, net.states[s]? = some st → st.Unmarked

namespace Unmarked

theorem modify (h : net.Unmarked) {f : State → State} (hf : ∀ st, st.Unmarked → (f st).Unmarked) :
    (net.modify s f).Unmarked := by
  refine ⟨fun {t st} ht => ?_⟩
  rw [getElem?_modify] at ht
  split at ht
  · obtain ⟨old, hold, rfl⟩ := Option.map_eq_some_iff.1 ht
    exact hf old (h.state hold)
  · exact h.state ht

theorem addState (h : net.Unmarked) {kind : StateKind} {rule : Option Nat} :
    (net.addState kind rule).2.Unmarked := by
  refine ⟨fun {t st} ht => ?_⟩
  rcases getElem?_addState_cases ht with ht | ⟨-, rfl⟩
  · exact h.state ht
  · exact ⟨nofun, nofun⟩

theorem setFollowed (h : net.Unmarked) (hes : ∀ e ∈ es, e.Unmarked) :
    (net.setFollowed s es).Unmarked :=
  h.modify fun _ hst => ⟨hst.edges, fun _ heq => Option.some.inj heq ▸ hes⟩

theorem addMatching (h : net.Unmarked) {rule : Option Nat} (hm : m.Unmarked) :
    (net.addMatching rule m).Unmarked := by
  have hone : ∀ e ∈ [m], e.Unmarked := List.forall_mem_singleton.2 hm
  exact h.addState.modify fun _ _ => ⟨hone, fun _ heq => Option.some.inj heq ▸ hone⟩

section passes

theorem soleMatch (h : net.Unmarked) {rule start : Nat}
    (hm : net.soleMatch rule start = .ok (some m)) : m.Unmarked := by
  simp only [Network.soleMatch, bind_eq_ok] at hm
  obtain ⟨middle, hmiddle, hm⟩ := hm
  obtain ⟨t, ht, -⟩ := skips_of_skipEpsilons hmiddle
  split at hm
  · rename_i matched hf
    have hmatched : matched.Unmarked := (h.state ht).followed matched (by simp [hf])
    split at hm
    · simp only [bind_eq_ok] at hm
      obtain ⟨after, -, hm⟩ := hm
      split at hm
      · split at hm
        · simp only [bind_eq_ok, pure_eq_ok] at hm
          obtain ⟨stop, -, hm⟩ := hm
          split at hm
          · exact Option.some.inj hm ▸ hmatched
          · cases hm
        · cases pure_eq_ok.1 hm
      · cases pure_eq_ok.1 hm
    · cases pure_eq_ok.1 hm
  · cases pure_eq_ok.1 hm

theorem soleMatches (h : net.Unmarked) (hsole : net.soleMatches = .ok sole) (hm : some m ∈ sole) :
    m.Unmarked := by
  obtain ⟨⟨start, rule⟩, -, hfound⟩ := exists_of_forall₂_right (mapM_eq_ok.1 hsole) hm
  exact h.soleMatch hfound

theorem inlineEdges (hsole : ∀ m, some m ∈ sole → m.Unmarked) (hes : ∀ e ∈ es, e.Unmarked) :
    ∀ {net : Network} {r : Nat × List Edge × Network}, net.Unmarked →
      Network.inlineEdges sole net es = .ok r →
      (∀ e ∈ r.2.1, e.Unmarked) ∧ r.2.2.Unmarked := by
  induction es with
  | nil =>
    intro net r h hn
    obtain rfl := pure_eq_ok.1 hn
    exact ⟨nofun, h⟩
  | cons e es ih =>
    intro net r h hn
    rw [List.forall_mem_cons] at hes
    unfold Network.inlineEdges at hn
    split at hn
    · simp only [bind_eq_ok, pure_eq_ok, Prod.exists] at hn
      obtain ⟨count, es', last, hrest, rfl⟩ := hn
      obtain ⟨hes', hlast⟩ := ih hes.2 h hrest
      exact ⟨List.forall_mem_cons.2 ⟨hes.1, hes'⟩, hlast⟩
    · rename_i c matched hfound
      simp only [bind_eq_ok, pure_eq_ok, Prod.exists] at hn
      obtain ⟨follow, -, count, es', last, hrest, rfl⟩ := hn
      have hmatched := (hsole matched (inlineOf_eq_some hfound).2).retarget c.follow
      obtain ⟨hes', hlast⟩ := ih hes.2 (h.addMatching hmatched) hrest
      exact ⟨List.forall_mem_cons.2 ⟨Edge.unmarked_plain, hes'⟩, hlast⟩

theorem inlineCalls (h : net.Unmarked) {count : Nat} (hn : net.inlineCalls = .ok (count, net')) :
    net'.Unmarked := by
  simp only [Network.inlineCalls, bind_eq_ok] at hn
  obtain ⟨sole, hsole, hn⟩ := hn
  split at hn
  · exact (Prod.mk.inj (pure_eq_ok.1 hn)).2 ▸ h
  · refine foldlM_keeps (P := fun a => Unmarked a.2) (fun s _ a b ha hs => ?_) h hn
    simp only [inlineState, bind_eq_ok, state_eq_ok] at hs
    obtain ⟨st, hst, hs⟩ := hs
    split at hs
    · exact pure_eq_ok.1 hs ▸ ha
    · simp only [bind_eq_ok, pure_eq_ok, Prod.exists] at hs
      obtain ⟨more, es, mid, hes, rfl⟩ := hs
      obtain ⟨hes, hmid⟩ :=
        inlineEdges (fun m => h.soleMatches hsole) (ha.state hst).followed ha hes
      exact hmid.setFollowed hes

theorem spliceOf {hops : List Edge} (hn : net.spliceOf s e = .ok (some hops)) :
    ∀ hop ∈ hops, hop.Unmarked := by
  unfold Network.spliceOf at hn
  split at hn
  · cases pure_eq_ok.1 hn
  · simp only [bind_eq_ok] at hn
    obtain ⟨middle, -, hn⟩ := hn
    split at hn
    · cases pure_eq_ok.1 hn
    · simp only [bind_eq_ok] at hn
      obtain ⟨cycle, -, hn⟩ := hn
      split at hn
      · cases pure_eq_ok.1 hn
      · have hn := pure_eq_ok.1 hn
        split at hn
        · obtain rfl := Option.some.inj hn
          exact List.forall_mem_map.2 fun _ _ => Edge.unmarked_plain
        · cases hn

theorem spliceEdges (hes : ∀ e ∈ es, e.Unmarked) :
    ∀ {r : Nat × List Edge}, net.spliceEdges s es = .ok r →
    ∀ e ∈ r.2, e.Unmarked := by
  induction es with
  | nil =>
    intro r hn
    exact pure_eq_ok.1 hn ▸ nofun
  | cons e es ih =>
    intro r hn
    rw [List.forall_mem_cons] at hes
    simp only [Network.spliceEdges, bind_eq_ok, pure_eq_ok, Prod.exists] at hn
    obtain ⟨found, hfound, count, es', hrest, rfl⟩ := hn
    have hes' := ih hes.2 hrest
    cases found with
    | none => exact List.forall_mem_cons.2 ⟨hes.1, hes'⟩
    | some hops => exact List.forall_mem_append.2 ⟨spliceOf hfound, hes'⟩

theorem spliceEpsilons (h : net.Unmarked) {count : Nat}
    (hn : net.spliceEpsilons = .ok (count, net')) : net'.Unmarked := by
  refine foldlM_keeps (P := fun a => Unmarked a.2) (fun s _ a b ha hs => ?_) h hn
  simp only [spliceState, bind_eq_ok, state_eq_ok] at hs
  obtain ⟨st, hst, hs⟩ := hs
  split at hs
  · exact pure_eq_ok.1 hs ▸ ha
  · simp only [bind_eq_ok, pure_eq_ok, Prod.exists] at hs
    obtain ⟨more, es, hes, rfl⟩ := hs
    split
    · exact ha
    · exact ha.setFollowed (spliceEdges (ha.state hst).followed hes)

theorem branchMatch (h : net.Unmarked) (hn : net.branchMatch e = .ok (some m)) :
    m.isLabelled = true ∧ m.Unmarked := by
  cases e with
  | epsilon target returning =>
    simp only [Network.branchMatch, bind_eq_ok, state_eq_ok] at hn
    obtain ⟨st, hst, hn⟩ := hn
    split at hn
    · rename_i matched hf
      split at hn
      · rename_i hlabelled
        simp only [bind_eq_ok, pure_eq_ok] at hn
        obtain ⟨stop, -, hn⟩ := hn
        split at hn
        · obtain rfl := Option.some.inj hn
          exact ⟨hlabelled, (h.state hst).followed matched (by simp [hf])⟩
        · cases hn
      · cases pure_eq_ok.1 hn
    · cases pure_eq_ok.1 hn
  | _ => cases pure_eq_ok.1 hn

theorem edgeOver {t : Nat} {members : List (Edge × Option Edge)}
    (h : ∀ b ∈ members, ∀ m, b.2 = some m → m.isLabelled = true ∧ m.Unmarked) :
    (Network.edgeOver t (members.foldl (fun set b =>
      set ∪ (b.2.bind Edge.label?).getD ∅) ∅)).Unmarked := by
  refine Edge.unmarked_of_accepts (members.filterMap (·.2)) (fun m hm => ?_) fun v lo hi hv => ?_
  · obtain ⟨b, hb, hm⟩ := List.mem_filterMap.1 hm
    exact (h b hb m hm).2
  · -- what is accepted was in the label of some member
    rw [accepts_edgeOver, mem_foldl_union] at hv
    obtain ⟨b, hb, hv⟩ := hv.resolve_left (SymbolSet.not_mem_empty v)
    cases hm : b.2 with
    | none =>
      rw [hm] at hv
      exact (SymbolSet.not_mem_empty v hv).elim
    | some m =>
      rw [hm] at hv
      exact ⟨m, List.mem_filterMap.2 ⟨b, hb, hm⟩, (accepts_of_isLabelled (h b hb m hm).1).2 hv⟩

theorem mergeMatches (h : net.Unmarked) {count : Nat} (hn : net.mergeMatches = .ok (count, net')) :
    net'.Unmarked := by
  unfold Network.mergeMatches at hn
  split at hn
  · exact (Prod.mk.inj (pure_eq_ok.1 hn)).2 ▸ h
  · refine foldlM_keeps (P := fun a => Unmarked a.2) (fun s _ a b ha hs => ?_) h hn
    simp only [mergeBranches, bind_eq_ok, state_eq_ok] at hs
    obtain ⟨st, hst, branches, hbranches, hs⟩ := hs
    have hbranch : ∀ b ∈ branches, b.1.Unmarked ∧ ∀ m, b.2 = some m → m.isLabelled = true ∧
        m.Unmarked := by
      intro b hb
      obtain ⟨e, he, hfound⟩ := exists_of_forall₂_right (mapM_eq_ok.1 hbranches) hb
      simp only [bind_eq_ok, pure_eq_ok] at hfound
      obtain ⟨found, hfound, rfl⟩ := hfound
      exact ⟨(ha.state hst).followed e he,
        fun m (hm : found = some m) => ha.branchMatch (hm ▸ hfound)⟩
    split at hs
    · exact pure_eq_ok.1 hs ▸ ha
    · split at hs
      · exact pure_eq_ok.1 hs ▸ ha
      · obtain rfl := pure_eq_ok.1 hs
        refine setFollowed (addMatching ha (edgeOver fun b hb => ?_)) ?_
        · exact (hbranch b (List.mem_of_mem_filter hb)).2
        · refine List.forall_mem_append.2 ⟨List.forall_mem_map.2 fun b hb => ?_, ?_⟩
          · exact (hbranch b (List.mem_of_mem_filter hb)).1
          · exact List.forall_mem_singleton.2 Edge.unmarked_plain

theorem optimize (h : net.Unmarked) {changes : Changes} (hn : net.optimize = .ok (changes, net')) :
    net'.Unmarked := by
  refine optimize_of_rounds ⟨fun {s st} hs => ?_⟩ (fun {a b done} ha hround => ?_) hn
  · obtain ⟨old, hold, rfl⟩ := exists_of_ensureOptimized hs
    have hold := h.state hold
    exact ⟨hold.edges, fun _ heq => Option.some.inj heq ▸ hold.followed⟩
  · simp only [optimizeOnce, bind_eq_ok, pure_eq_ok, Prod.exists, Prod.mk.injEq] at hround
    obtain ⟨_, inlined, hinline, _, spliced, hsplice, _, merged, hmerge, -, rfl⟩ := hround
    exact ((ha.inlineCalls hinline).spliceEpsilons hsplice).mergeMatches hmerge

end passes

end Unmarked

end Network

end GrammarWalk
