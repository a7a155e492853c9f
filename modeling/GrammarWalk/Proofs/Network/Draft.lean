import GrammarWalk.Network.Links
import GrammarWalk.Network.ReturnEdges
import GrammarWalk.Proofs.Network.Wired
import GrammarWalk.Proofs.Outcome

/-! A draft is a wired network without optimized edge lists, as it is while it is read and extended.
The passes that derive return edges and links from the edges keep it one. -/

namespace GrammarWalk.Network

variable {net net' : Network}

structure Draft (net : Network) : Prop extends Wired net where
  bare : ∀ {s : Nat} {st : State}, net.states[s]? = some st → st.optimized = none
  stops : net.ruleStops.size ≤ net.ruleStarts.size

theorem Draft.modify (h : net.Draft) {s : Nat} {f : State → State} (hf : net.Respects s f)
    (ho : ∀ st, (f st).optimized = st.optimized) : (net.modify s f).Draft where
  toWired := h.toWired.modify hf
  stops := h.stops
  bare {t st} ht := by
    rw [getElem?_modify] at ht
    split at ht
    · obtain ⟨old, hold, rfl⟩ := Option.map_eq_some_iff.1 ht
      rw [ho, h.bare hold]
    · exact h.bare ht

theorem Draft.addEdge (h : net.Draft) {s : Nat} {e : Edge} (he : e.Within net.states.size) :
    (net.addEdge s e).Draft :=
  h.modify (h.respects_addEdge he) fun _ => rfl

theorem Draft.addState (h : net.Draft) {kind : StateKind} {rule : Option Nat} :
    (net.addState kind rule).2.Draft where
  toWired := h.toWired.addState
  stops := h.stops
  bare {t st} ht := by
    rcases getElem?_addState_cases ht with ht | ⟨-, rfl⟩
    · exact h.bare ht
    · rfl

theorem Draft.followed_eq (h : net.Draft) {s : Nat} {st : State} (hs : net.states[s]? = some st) :
    st.followed = st.edges := by
  rw [State.followed, h.bare hs, Option.getD_none]

/-- The tables of rules are the same. -/
structure SameRules (net net' : Network) : Prop where
  starts : net'.ruleStarts = net.ruleStarts
  stops : net'.ruleStops = net.ruleStops

theorem SameRules.refl (net : Network) : SameRules net net := ⟨rfl, rfl⟩

theorem SameRules.trans {a b c : Network} (h : SameRules a b) (h' : SameRules b c) :
    SameRules a c := ⟨h'.starts.trans h.starts, h'.stops.trans h.stops⟩

theorem SameRules.modify {s : Nat} {f : State → State} : SameRules net (net.modify s f) :=
  ⟨rfl, rfl⟩

theorem SameRules.addState {kind : StateKind} {rule : Option Nat} :
    SameRules net (net.addState kind rule).2 := ⟨rfl, rfl⟩

theorem within_of_mem {s : Nat} {st : State} {c : Call} (h : net.Wired)
    (hs : net.states[s]? = some st) (hc : .call c ∈ st.edges) :
    c.start < net.states.size ∧ c.follow < net.states.size :=
  ⟨((h.within hs).edges _ hc).1, ((h.within hs).edges _ hc).2 c rfl⟩

section returns

theorem follow_lt_of_mem_returns (h : net.Wired) {r : Return} (hr : r ∈ net.returns) :
    r.follow < net.states.size := by
  rw [returns, List.mem_eraseDups, List.mem_flatMap] at hr
  obtain ⟨st, hst, hr⟩ := hr
  obtain ⟨e, he, hr⟩ := List.mem_filterMap.1 hr
  obtain ⟨s, hs, hsst⟩ := Array.mem_iff_getElem.1 (Array.mem_toList_iff.1 hst)
  cases e with
  | call c =>
    simp only [Edge.call?, Option.bind_some, returnOf] at hr
    split at hr
    · simp at hr
    · obtain rfl := Option.some.inj hr
      exact (within_of_mem h (hsst ▸ Array.getElem?_eq_getElem hs) he).2
  | _ => simp [Edge.call?] at hr

theorem addReturns_induction {P : Network → Prop} {rs : List Return} {n : Nat}
    (hn : net.addReturns rs = .ok (n, net')) (h : P net)
    (step : ∀ m : Network, ∀ stop, ∀ r ∈ rs, P m → P (m.addEdge stop (.epsilon r.follow r.mark))) :
    P net' := by
  induction rs generalizing net n with
  | nil => exact (Prod.mk.inj (pure_eq_ok.1 hn)).2 ▸ h
  | cons r rs ih =>
    simp only [Network.addReturns, bind_eq_ok, pure_eq_ok, Prod.exists, Prod.mk.injEq] at hn
    obtain ⟨i, mid, hr, j, last, hrest, -, rfl⟩ := hn
    refine ih hrest ?_ fun m stop r hr => step m stop r (List.mem_cons_of_mem _ hr)
    rw [addReturn] at hr
    split at hr
    · exact (Prod.mk.inj (pure_eq_ok.1 hr)).2 ▸ h
    · simp only [bind_eq_ok, pure_eq_ok, Prod.mk.injEq] at hr
      obtain ⟨-, -, -, rfl⟩ := hr
      exact step net _ r List.mem_cons_self h

theorem Draft.addReturns (h : net.Draft) {rs : List Return} {n : Nat}
    (hrs : ∀ r ∈ rs, r.follow < net.states.size) (hn : net.addReturns rs = .ok (n, net')) :
    net'.Draft ∧ SameRules net net' := by
  have key : net'.Draft ∧ SameRules net net' ∧ net'.states.size = net.states.size :=
    addReturns_induction (P := fun m => m.Draft ∧ SameRules net m ∧
      m.states.size = net.states.size) hn
      ⟨h, .refl net, rfl⟩ fun m stop r hr hm =>
        ⟨hm.1.addEdge ⟨hm.2.2 ▸ hrs r hr, nofun⟩, ⟨hm.2.1.starts, hm.2.1.stops⟩,
          size_modify.trans hm.2.2⟩
  exact ⟨key.1, key.2.1⟩

theorem Draft.withReturnEdges (h : net.Draft) {n : Nat}
    (hn : net.withReturnEdges = .ok (n, net')) : net'.Draft ∧ SameRules net net' :=
  h.addReturns (fun _ hr => follow_lt_of_mem_returns h.toWired hr) hn

end returns

section links

/-- What linking a block does: nothing to a state that starts none, else it links the end, which was
open. -/
theorem linkBlock_cases {s : Nat} (hn : net.linkBlock s = .ok net') :
    ∃ st, net.states[s]? = some st ∧
    (((∀ flavor stop d, st.kind ≠ .blockStart flavor stop d) ∧ net' = net) ∨
    ∃ flavor stop d e, st.kind = .blockStart flavor (some stop) d ∧ net.states[stop]? = some e ∧
      e.kind = .blockEnd none ∧ net' = net.modify stop fun st =>
      { st with kind := .blockEnd (some s) }) := by
  simp only [linkBlock, bind_eq_ok, liftM_fault_eq_ok, state_eq_ok] at hn
  obtain ⟨st, hst, hn⟩ := hn
  refine ⟨st, hst, ?_⟩
  split at hn
  · exact (throw_ne_ok.1 hn).elim
  · rename_i flavor stop d hk
    simp only [bind_eq_ok, liftM_fault_eq_ok, state_eq_ok] at hn
    obtain ⟨e, he, hn⟩ := hn
    split at hn
    · rename_i hopen
      exact .inr ⟨flavor, stop, d, e, hk, he, hopen, (pure_eq_ok.1 hn).symm⟩
    · exact (throw_ne_ok.1 hn).elim
    · exact (throw_ne_ok.1 hn).elim
  · rename_i hnone hsome
    refine .inl ⟨fun flavor stop d hk => ?_, (pure_eq_ok.1 hn).symm⟩
    cases stop with
    | none => exact hnone flavor d hk
    | some stop => exact hsome flavor stop d hk

theorem linkBlock_keeps {s : Nat} (h : net.Draft) (hn : net.linkBlock s = .ok net') :
    net'.Draft ∧ SameRules net net' := by
  obtain ⟨st, -, ⟨-, rfl⟩ | ⟨flavor, stop, d, e, -, he, hopen, rfl⟩⟩ := linkBlock_cases hn
  · exact ⟨h, .refl net'⟩
  · refine ⟨h.modify (h.respects_kind fun st' hst' => ?_) fun _ => rfl, ⟨rfl, rfl⟩⟩
    rw [he] at hst'
    rw [← Option.some.inj hst', hopen]
    rfl

theorem Draft.linkBlocks (h : net.Draft) (hn : net.linkBlocks = .ok net') :
    net'.Draft ∧ SameRules net net' :=
  foldlM_keeps (P := fun m => m.Draft ∧ SameRules net m)
    (fun _ _ _ _ hb hs => (linkBlock_keeps hb.1 hs).imp_right hb.2.trans) ⟨h, .refl net⟩ hn

theorem type_closePlus (s : Nat) (st : State) : (closePlus s st).kind.type = st.kind.type := by
  unfold closePlus
  split
  · rename_i h; rw [h]; rfl
  · rfl

theorem type_closeStar (s : Nat) (st : State) : (closeStar s st).kind.type = st.kind.type := by
  unfold closeStar
  split
  · rename_i h; rw [h]; rfl
  · rfl

/-- A change that touches the kind only, and not the type. -/
structure ChangesLink (f : State → State) : Prop where
  eq : ∀ st, f st = { st with kind := (f st).kind }
  type : ∀ st, (f st).kind.type = st.kind.type

theorem changesLink_closePlus (s : Nat) : ChangesLink (closePlus s) where
  eq st := by unfold closePlus; split <;> rfl
  type := type_closePlus s

theorem changesLink_closeStar (s : Nat) : ChangesLink (closeStar s) where
  eq st := by unfold closeStar; split <;> rfl
  type := type_closeStar s

theorem Draft.modify_link (h : net.Draft) {s : Nat} {f : State → State} (hf : ChangesLink f) :
    (net.modify s f).Draft := by
  have heq : f = fun st => { st with kind := (f st).kind } := funext hf.eq
  rw [heq]
  exact h.modify (h.respects_kind fun st _ => hf.type st) fun _ => rfl

theorem linkLoop_induction {P : Network → Prop} {s : Nat} (hn : net.linkLoop s = .ok net')
    (h : P net)
    (plus : ∀ st d, net.states[s]? = some st → st.kind = .plusLoopBack d → ∀ e ∈ st.edges,
      ∀ m, P m → P (m.modify e.target (closePlus s)))
    (star : ∀ st, net.states[s]? = some st → st.kind = .starLoopBack → ∀ e ∈ st.edges, ∀ m, P m →
      P (m.modify e.target (closeStar s))) : P net' := by
  simp only [linkLoop, bind_eq_ok, state_eq_ok] at hn
  obtain ⟨st, hst, hn⟩ := hn
  have close {f : State → State} (hf : ∀ e ∈ st.edges, ∀ m, P m → P (m.modify e.target f))
      (hn : st.edges.foldlM (fun (net : Network) e => do
        let _ ← net.state e.target
        return net.modify e.target f) net = .ok net') : P net' := by
    refine foldlM_keeps (fun e he b b' hb hs => ?_) h hn
    simp only [bind_eq_ok, pure_eq_ok] at hs
    obtain ⟨-, -, rfl⟩ := hs
    exact hf e he b hb
  split at hn
  · exact close (plus st _ hst ‹_›) hn
  · exact close (star st hst ‹_›) hn
  · exact pure_eq_ok.1 hn ▸ h

theorem linkLoop_keeps {s : Nat} (h : net.Draft) (hn : net.linkLoop s = .ok net') :
    net'.Draft ∧ SameRules net net' :=
  linkLoop_induction (P := fun m => m.Draft ∧ SameRules net m) hn ⟨h, .refl net⟩
    (fun _ _ _ _ _ _ _ hm => ⟨hm.1.modify_link (changesLink_closePlus s), hm.2.trans ⟨rfl, rfl⟩⟩)
    (fun _ _ _ _ _ _ hm => ⟨hm.1.modify_link (changesLink_closeStar s), hm.2.trans ⟨rfl, rfl⟩⟩)

theorem Draft.linkLoops (h : net.Draft) (hn : net.linkLoops = .ok net') :
    net'.Draft ∧ SameRules net net' :=
  foldlM_keeps (P := fun m => m.Draft ∧ SameRules net m)
    (fun _ _ _ _ hb hs => (linkLoop_keeps hb.1 hs).imp_right hb.2.trans) ⟨h, .refl net⟩ hn

/-- What marking a precedence loop does: nothing, or it sets the mark of a loop's entry. -/
theorem markPrecedence_cases {s : Nat} (hn : net.markPrecedence s = .ok net') : net' = net ∨
    ∃ st d loopback p, net.states[s]? = some st ∧ st.kind = .starLoopEntry d loopback p ∧
      st.rule.any net.isPrecedenceRule = true ∧
      net' = net.modify s fun st => { st with kind := .starLoopEntry d loopback true } := by
  simp only [markPrecedence, bind_eq_ok, state_eq_ok] at hn
  obtain ⟨st, hst, hn⟩ := hn
  have same (he : (pure net : Except Fault Network) = .ok net') : net' = net :=
    (pure_eq_ok.1 he).symm
  split at hn
  · rename_i d loopback p hk
    split at hn
    · rw [bind_eq_ok] at hn
      obtain ⟨exits, -, hn⟩ := hn
      split at hn
      · exact .inr ⟨st, d, loopback, p, hst, hk, ‹_›, (pure_eq_ok.1 hn).symm⟩
      · exact .inl (same hn)
    · exact .inl (same hn)
  · exact .inl (same hn)

theorem markPrecedence_keeps {s : Nat} (h : net.Draft) (hn : net.markPrecedence s = .ok net') :
    net'.Draft ∧ SameRules net net' := by
  obtain rfl | ⟨st, d, loopback, p, hst, hk, -, rfl⟩ := markPrecedence_cases hn
  · exact ⟨h, .refl net'⟩
  · refine ⟨h.modify (h.respects_kind fun st' hst' => ?_) fun _ => rfl, ⟨rfl, rfl⟩⟩
    rw [hst] at hst'
    rw [← Option.some.inj hst', hk]
    rfl

theorem Draft.markPrecedences (h : net.Draft) (hn : net.markPrecedences = .ok net') :
    net'.Draft ∧ SameRules net net' :=
  foldlM_keeps (P := fun m => m.Draft ∧ SameRules net m)
    (fun _ _ _ _ hb hs => (markPrecedence_keeps hb.1 hs).imp_right hb.2.trans) ⟨h, .refl net⟩ hn

theorem defineDecision_eq_some {s d : Nat} (hn : net.defineDecision s = some (d, net')) :
    ∃ st dec, net.states[s]? = some st ∧ st.kind.decision? = some dec ∧ dec.number = none ∧
      d = net.decisions.size ∧
      net' = { net.modify s fun st =>
          { st with kind := st.kind.mapDecision fun d =>
          { d with number := some net.decisions.size } } with
        decisions := net.decisions.push s } := by
  simp only [defineDecision, Option.bind_eq_bind, Option.bind_eq_some_iff] at hn
  obtain ⟨st, hst, dec, hdec, hn⟩ := hn
  split at hn
  · simp at hn
  · obtain ⟨rfl, rfl⟩ := Prod.mk.inj (Option.some.inj hn)
    exact ⟨st, dec, hst, hdec, ‹_›, rfl, rfl⟩

theorem tables_of_defineDecision {s d : Nat} (hn : net.defineDecision s = some (d, net')) :
    net' = { net with states := net'.states, decisions := net.decisions.push s } := by
  obtain ⟨_, _, -, -, -, -, rfl⟩ := defineDecision_eq_some hn
  rfl

theorem size_of_defineDecision {s d : Nat} (hn : net.defineDecision s = some (d, net')) :
    net'.states.size = net.states.size := by
  obtain ⟨st, dec, -, -, -, -, rfl⟩ := defineDecision_eq_some hn
  exact size_modify

theorem keeps_defineDecision {s d : Nat} (hn : net.defineDecision s = some (d, net')) :
    Keeps net net' := by
  obtain ⟨st, dec, -, -, -, -, rfl⟩ := defineDecision_eq_some hn
  have hk : Keeps net (net.modify s fun st => { st with
      kind := st.kind.mapDecision fun d => { d with number := some net.decisions.size } }) :=
    keeps_modify fun _ _ => ⟨rfl, StateKind.type_mapDecision⟩
  exact ⟨hk.state⟩

theorem defineDecision_keeps {s d : Nat} (h : net.Draft)
    (hn : net.defineDecision s = some (d, net')) : net'.Draft ∧ SameRules net net' := by
  obtain ⟨st, dec, hst, hdec, -, -, rfl⟩ := defineDecision_eq_some hn
  have hm : (net.modify s fun st => { st with kind := st.kind.mapDecision fun d =>
      { d with number := some net.decisions.size } }).Draft :=
    h.modify (h.respects_kind fun _ _ => StateKind.type_mapDecision) fun _ => rfl
  refine ⟨⟨⟨hm.number, hm.within, hm.start, hm.stop, hm.mode, ?_⟩, hm.bare, hm.stops⟩, ⟨rfl, rfl⟩⟩
  intro i t hi
  change (net.decisions.push s)[i]? = some t at hi
  rw [Array.getElem?_push] at hi
  split at hi
  · obtain rfl := Option.some.inj hi
    refine ⟨_, getElem?_modify_self hst, ?_⟩
    rw [StateKind.isSome_decision?_type, StateKind.type_mapDecision,
      ← StateKind.isSome_decision?_type, hdec]
    rfl
  · exact hm.decision hi

end links

end GrammarWalk.Network
