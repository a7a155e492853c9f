import GrammarWalk.Proofs.Load.Safe
import GrammarWalk.Proofs.Network.Links

/-! The links and the numbers of decisions of a network that is read. -/

namespace GrammarWalk

open Network Wire Reader

variable {net net' : Network} {c c' : Cursor}

namespace Network

theorem Unlinked.modify (h : net.Unlinked) {s : Nat} {f : State → State}
    (hf : ∀ st, net.states[s]? = some st → st.kind.Unlinked net.states.size →
      (f st).kind.Unlinked net.states.size) : (net.modify s f).Unlinked where
  decisions := h.decisions
  kind {t st} ht := by
    rw [size_modify]
    rw [getElem?_modify] at ht
    split at ht
    · subst s
      obtain ⟨old, hold, rfl⟩ := Option.map_eq_some_iff.1 ht
      exact hf old hold (h.kind hold)
    · exact h.kind ht

theorem Unlinked.addEdge (h : net.Unlinked) {s : Nat} {e : Edge} : (net.addEdge s e).Unlinked :=
  h.modify (f := (·.addEdge e)) fun _ _ hk => hk

theorem Unlinked.addReturns {rs : List Return} {n : Nat} (h : net.Unlinked)
    (hn : net.addReturns rs = .ok (n, net')) : net'.Unlinked :=
  addReturns_induction hn h fun _ _ _ _ hm => hm.addEdge

end Network

namespace Wire

theorem Row.unlinked_kind {r : Row} {n : Nat}
    (h : (r.isLoop || r.isBlock) = true → ∀ t, r.link = some t → t < n) : r.kind.Unlinked n := by
  obtain ⟨type, rule, link⟩ := r
  have hlink (ht : (Row.isLoop ⟨type, rule, link⟩ || Row.isBlock ⟨type, rule, link⟩) = true) :
      ∀ t ∈ link.toList, t < n := fun t ht' => h ht t (Option.mem_toList.1 ht')
  cases type <;> first
    | exact ⟨hlink rfl, rfl, rfl, rfl, rfl, nofun⟩
    | exact ⟨nofun, rfl, rfl, rfl, rfl, nofun⟩

theorem readStates_unlinked (h0 : net.decisions = #[]) (hn : readStates net c = .ok (net', c')) :
    net'.Unlinked := by
  obtain ⟨rows, hnet, hlinks⟩ : ∃ rows : List Row, net' = _ ∧ _ := (safeRead_rows c).keeps _ hn
  refine ⟨fun {s st} hs => ?_, by rw [hnet]; exact h0⟩
  rw [hnet] at hs
  obtain ⟨r, hr, rfl⟩ := Option.map_eq_some_iff.1 (Array.getElem?_mapIdx.symm.trans hs)
  exact Row.unlinked_kind (hlinks r (by simpa using Array.mem_of_getElem? hr))

theorem readNonGreedy_unlinked (h : net.Unlinked) (hn : readNonGreedy net c = .ok (net', c')) :
    net'.Unlinked := by
  obtain ⟨s, rfl⟩ := readNonGreedy_eq_ok hn
  refine h.modify fun st _ hk => ?_
  have same {α : Type} {g : StateKind → α} (hg : StateKind.Linkage g) :
      g (st.kind.mapDecision fun d => { d with nonGreedy := true }) = g st.kind :=
    hg.congr StateKind.linkage_mapDecision
  refine ⟨(same StateKind.linkage_links).symm ▸ hk.within,
    (same StateKind.linkage_blockStart?).trans hk.start,
    (same StateKind.linkage_plusLoopback?).trans hk.plus,
    (same StateKind.linkage_starLoopback?).trans hk.star, ?_, ?_⟩
  · rw [StateKind.number?_mapDecision, Option.bind_map]
    exact hk.number
  · rw [StateKind.mark?_mapDecision]
    exact hk.mark

theorem readPrecedenceRule_unlinked (h : net.Unlinked)
    (hn : readPrecedenceRule net c = .ok (net', c')) : net'.Unlinked := by
  obtain ⟨s, st, stop, p, leftFactored, hst, hk, rfl⟩ := readPrecedenceRule_eq_ok hn
  refine h.modify fun st' hst' hk' => ?_
  obtain rfl := Option.some.inj (hst.symm.trans hst')
  rw [hk] at hk'
  exact ⟨hk'.within, rfl, rfl, rfl, rfl, nofun⟩

theorem readRule_unlinked {version : Version} (h : net.Unlinked)
    (hn : readRule version net c = .ok (net', c')) : net'.Unlinked := by
  obtain ⟨s, tokens, -, rfl⟩ := readRule_eq_ok hn
  exact ⟨h.kind, h.decisions⟩

theorem linkStops_unlinked (hd : net.Draft) (hs : net.ruleStops = #[]) (h : net.Unlinked)
    (hn : linkStops net = .ok net') : net'.Unlinked := by
  refine (linkStops_induction (P := Unlinked) hd hs hn h fun m start stop hstop hm => ?_).2
  have pushed : Unlinked { m with ruleStops := m.ruleStops.push stop } := ⟨hm.kind, hm.decisions⟩
  refine pushed.modify fun st _ hk => ?_
  split
  · rename_i p leftFactored _
    exact ⟨fun t ht => List.mem_singleton.1 ht ▸ hstop, rfl, rfl, rfl, rfl, by cases p <;> nofun⟩
  · exact hk

theorem readMode_unlinked (h : net.Unlinked) (hn : readMode net c = .ok (net', c')) :
    net'.Unlinked := by
  obtain ⟨s, -, rfl⟩ := readMode_eq_ok hn
  exact ⟨h.kind, h.decisions⟩

theorem readEdge_unlinked {sets : List SymbolSet} (h : net.Unlinked)
    (hn : readEdge sets net c = .ok (net', c')) : net'.Unlinked := by
  obtain ⟨s, e, -, rfl, -⟩ := readEdge_eq_ok hn
  exact h.addEdge

theorem readDecision_links (h : net.Linked ∧ net.Numbered)
    (hn : readDecision net c = .ok (net', c')) : net'.Linked ∧ net'.Numbered := by
  obtain ⟨s, d, hn⟩ := readDecision_eq_ok hn
  exact ⟨(SameLinks.defineDecision hn).linked h.1, h.2.defineDecision hn⟩

theorem target_numberActions {first : Nat} {es : List Edge} :
    (numberActions first es).1.map Edge.target = es.map Edge.target := by
  induction es generalizing first with
  | nil => rfl
  | cons e es ih => cases e <;> simp [numberActions, ih, Edge.target]

theorem withCommands_links (h : net.Draft) :
    SameLinks net (withCommands net) ∧ SameNumbers net (withCommands net) := by
  refine withCommands_induction (P := fun m => SameLinks net m ∧ SameNumbers net m)
    ⟨.refl net, .refl net⟩ ?_ ?_
  · rintro m i st hst ⟨hlinks, hnumbers⟩
    rw [h.number hst]
    refine ⟨hlinks.trans (.modify fun st' hst' => ⟨rfl, fun hback => ?_⟩),
      hnumbers.trans (.modify fun _ _ => rfl)⟩
    -- the edges that are written are those the state had before, with their actions numbered
    obtain ⟨st'', hst'', hk, hedges⟩ := hlinks.old hst
    obtain rfl := Option.some.inj (hst'.symm.trans hst'')
    rw [hedges (by rwa [← StateKind.linkage_type.congr hk]), target_numberActions]
  · rintro m commands ⟨hlinks, hnumbers⟩
    exact ⟨⟨hlinks.old, hlinks.new⟩, hnumbers.decisions, hnumbers.number⟩

theorem readCommands_links {version : Version} (hd : net.Draft) (h : net.Linked ∧ net.Numbered)
    (hn : readCommands version net c = .ok (net', c')) : net'.Linked ∧ net'.Numbered := by
  obtain ⟨commands, rfl⟩ | rfl := readCommands_eq_ok hn
  · exact ⟨⟨h.1.within, h.1.ends, h.1.block, h.1.plus, h.1.star⟩, h.2⟩
  · obtain ⟨hlinks, hnumbers⟩ := withCommands_links hd
    exact ⟨hlinks.linked h.1, hnumbers.numbered h.2⟩

theorem Sections.returns_unlinked (s : Sections net) : s.returns.Unlinked := by
  have d := s.drafts
  have states : s.states.Unlinked := by
    obtain ⟨_, _, _, _, h⟩ := s.readStates
    exact readStates_unlinked rfl h
  have nonGreedy := s.readNonGreedy.keeps (fun _ _ _ _ => readNonGreedy_unlinked) states
  have precedence := s.readPrecedence.keeps (fun _ _ _ _ => readPrecedenceRule_unlinked) nonGreedy
  have rules := s.readRules.keeps (fun _ _ _ _ => readRule_unlinked) precedence
  have linked := linkStops_unlinked d.rules.1 d.rules.2 rules s.linkStops
  have modes := s.readModes.keeps (fun _ _ _ _ => readMode_unlinked) linked
  have edges := s.readEdges.keeps (fun _ _ _ _ => readEdge_unlinked) modes
  obtain ⟨_, h⟩ := s.addReturns
  exact edges.addReturns h

theorem decode_links {words : List Word} (hn : decode words = .ok net) :
    net.Linked ∧ net.Numbered := by
  obtain ⟨s⟩ := decode_sections hn
  have d := s.drafts
  have returns := s.returns_unlinked
  have blocks : s.blocks.Linked ∧ s.blocks.Numbered :=
    ⟨returns.linkBlocks s.linkBlocks,
      (SameNumbers.linkBlocks s.linkBlocks).numbered returns.numbered⟩
  have loops : s.loops.Linked ∧ s.loops.Numbered :=
    ⟨blocks.1.linkLoops s.linkLoops, (SameNumbers.linkLoops s.linkLoops).numbered blocks.2⟩
  have decisions := s.readDecisions.keeps (P := fun m => m.Linked ∧ m.Numbered)
    (fun _ _ _ _ => readDecision_links) loops
  have commands : s.commands.Linked ∧ s.commands.Numbered := by
    obtain ⟨_, _, h⟩ := s.readCommands
    exact readCommands_links d.decisions.1 decisions h
  exact ⟨(SameLinks.markPrecedences s.markPrecedences).linked commands.1,
    (SameNumbers.markPrecedences s.markPrecedences).numbered commands.2⟩

end Wire

namespace Network

section bypass

theorem Linked.lt_of_blockStop (h : net.Linked) {s t : Nat}
    (hs : net.linkAt StateKind.blockStop? s = some t) :
    s < net.states.size ∧ t < net.states.size := by
  obtain ⟨_, hst, -⟩ := linkAt_eq_some.1 hs
  obtain ⟨_, hst', -⟩ := linkAt_eq_some.1 (h.block.1 hs)
  exact ⟨lt_size hst, lt_size hst'⟩

section withBlock

variable {rule s t : Nat}

theorem blockStop?_withBlock : (net.withBlock rule).linkAt StateKind.blockStop? s =
    if s = net.states.size then some (net.states.size + 1)
    else net.linkAt StateKind.blockStop? s := by
  rw [withBlock, linkAt_addState, linkAt_addState, size_addState]
  split
  · rename_i hs
    have hold : net.linkAt StateKind.blockStop? s = none := by
      rw [linkAt, Array.getElem?_eq_none (by omega), Option.bind_none]
    rw [if_neg (by omega), hold]
    rfl
  · rfl

theorem blockStart?_withBlock : (net.withBlock rule).linkAt StateKind.blockStart? t =
    if t = net.states.size + 1 then some net.states.size
    else net.linkAt StateKind.blockStart? t := by
  rw [withBlock, linkAt_addState, linkAt_addState, size_addState]
  split
  · rfl
  · split
    · rename_i ht
      rw [linkAt, Array.getElem?_eq_none (by omega), Option.bind_none]
      rfl
    · rfl

theorem linkAt_of_withBlock {g : StateKind → Option Nat}
    (hstart : ∀ stop, g (.blockStart .plain stop {}) = none)
    (hend : ∀ start, g (.blockEnd start) = none) (hs : (net.withBlock rule).linkAt g s = some t) :
    net.linkAt g s = some t := by
  rw [withBlock, linkAt_addState, linkAt_addState, hstart, hend] at hs
  split at hs
  · cases hs
  · split at hs
    · cases hs
    · exact hs

theorem Linked.withBlock (h : net.Linked) : (net.withBlock rule).Linked where
  within {s st} hs t ht := by
    rw [size_withBlock]
    rcases getElem?_addState_cases hs with hs | ⟨-, rfl⟩
    · rcases getElem?_addState_cases hs with hs | ⟨-, rfl⟩
      · have := h.within hs t ht
        omega
      · obtain rfl := List.mem_singleton.1 ht
        omega
    · obtain rfl := List.mem_singleton.1 ht
      omega
  ends {s st} hs hb := by
    rcases getElem?_addState_cases hs with hs | ⟨-, rfl⟩
    · rcases getElem?_addState_cases hs with hs | ⟨-, rfl⟩
      · exact h.ends hs hb
      · rfl
    · exact nomatch hb
  block {s t} := by
    rw [blockStop?_withBlock, blockStart?_withBlock]
    constructor
    · intro hs
      split at hs
      · rename_i heq
        rw [if_pos (Option.some.inj hs).symm, heq]
      · have hlt := (h.lt_of_blockStop hs).2
        rw [if_neg (by omega)]
        exact h.block.1 hs
    · intro hs
      split at hs
      · rename_i heq
        rw [if_pos (Option.some.inj hs).symm, heq]
      · have hs := h.block.2 hs
        have hlt := (h.lt_of_blockStop hs).1
        rw [if_neg (by omega)]
        exact hs
  plus hs := by
    obtain ⟨st, hst, htype, hmem⟩ := h.plus (linkAt_of_withBlock (fun _ => rfl) (fun _ => rfl) hs)
    exact ⟨st, getElem?_addState (getElem?_addState hst), htype, hmem⟩
  star hs := by
    obtain ⟨st, hst, htype, hone⟩ := h.star (linkAt_of_withBlock (fun _ => rfl) (fun _ => rfl) hs)
    exact ⟨st, getElem?_addState (getElem?_addState hst), htype, hone⟩

end withBlock

variable {old new : Nat} {kept : Option Nat}

theorem linkAt_redirect {g : StateKind → Option Nat} {s : Nat} :
    (net.redirect old new kept).linkAt g s = net.linkAt g s := by
  rw [linkAt, linkAt, getElem?_redirect, Option.bind_map]
  rfl

theorem SameNumbers.redirect : SameNumbers net (net.redirect old new kept) :=
  ⟨rfl, fun _ => linkAt_redirect⟩

/-- Loopbacks still close their loops when other edges into the end of a part of a rule are led past
it. -/
theorem Linked.redirect (h : net.Linked) {st : State} (hold : net.states[old]? = some st)
    (hend : (st.kind = .ruleStop ∧ kept = none) ∨
      ∃ d loopback p, st.kind = .starLoopEntry d (some loopback) p ∧ kept = some loopback) :
    (net.redirect old new kept).Linked := by
  have size : (net.redirect old new kept).states.size = net.states.size := by
    simp [Network.redirect]
  have back {s : Nat} {st' : State} (hs : (net.redirect old new kept).states[s]? = some st') :
      ∃ st, net.states[s]? = some st ∧ st'.kind = st.kind := by
    rw [getElem?_redirect] at hs
    obtain ⟨st, hst, rfl⟩ := Option.map_eq_some_iff.1 hs
    exact ⟨st, hst, rfl⟩
  refine ⟨fun {s st'} hs t ht => ?_, fun {s st'} hs hb => ?_, fun {s t} => ?_, fun {s l} hs => ?_,
    fun {s l} hs => ?_⟩
  · obtain ⟨st, hst, hk⟩ := back hs
    rw [size]
    exact h.within hst t (hk ▸ ht)
  · obtain ⟨st, hst, hk⟩ := back hs
    rw [hk] at hb ⊢
    exact h.ends hst hb
  · rw [linkAt_redirect, linkAt_redirect]
    exact h.block
  · rw [linkAt_redirect] at hs
    obtain ⟨lst, hl, htype, hmem⟩ := h.plus hs
    have hne : s ≠ old := by
      rintro rfl
      rw [linkAt_of_getElem? hold] at hs
      obtain ⟨hk, -⟩ | ⟨_, _, _, hk, -⟩ := hend <;> rw [hk] at hs <;> cases hs
    refine ⟨_, getElem?_redirect_of hl, htype, ?_⟩
    obtain ⟨e, he, rfl⟩ := List.mem_map.1 hmem
    obtain ⟨i, hi, rfl⟩ := List.getElem_of_mem he
    refine List.mem_map.2 ⟨lst.edges[i], List.mem_mapIdx.2 ⟨i, hi, ?_⟩, rfl⟩
    rw [if_neg fun hc => hne hc.1]
  · rw [linkAt_redirect] at hs
    obtain ⟨lst, hl, htype, hone⟩ := h.star hs
    refine ⟨_, getElem?_redirect_of hl, htype, fun t ht => ?_⟩
    obtain ⟨e, he⟩ : ∃ e, lst.edges = [e] := by
      rw [← List.length_eq_one_iff]
      simpa using congrArg List.length ht
    have htarget := hone e.target (by rw [he]; rfl)
    simp only [he, List.mapIdx_cons, List.mapIdx_nil, List.map_cons, List.map_nil, List.cons.injEq,
      and_true] at ht
    rw [← ht, ← htarget]
    split
    · -- an edge into the entry of the loop is the one that is kept
      rename_i hc
      obtain ⟨hold', hkept⟩ := hc
      obtain rfl : s = old := htarget ▸ hold'
      rw [linkAt_of_getElem? hold] at hs
      obtain ⟨hk, -⟩ | ⟨_, _, _, hk, hk'⟩ := hend
      · rw [hk] at hs
        cases hs
      · rw [hk] at hs
        rw [hk'] at hkept
        exact (hkept hs).elim
    · rfl

namespace BypassStages

variable {rule : Nat} (b : net.BypassStages rule)

theorem hasType_led (hd : net.Draft) : b.led.HasType b.ruleStart .ruleStart ∧
    b.led.HasType net.states.size .blockStart ∧ b.led.HasType (net.states.size + 1) .blockEnd := by
  have opened : Keeps (net.withBlock rule) b.led :=
    (keeps_defineDecision b.defineDecision).trans keeps_redirect
  refine ⟨?_, (hasType_addState.keeps keeps_addState).keeps opened, ?_⟩
  · obtain ⟨st, hst, hstart⟩ := hd.start b.start
    have htype : st.kind.type = .ruleStart := by
      simpa [State.isRuleStart, StateKind.isRuleStart_type] using hstart
    exact HasType.keeps ⟨st, hst, htype⟩ ((keeps_addState.trans keeps_addState).trans opened)
  · have hnew :=
      @hasType_addState (net.addState (.blockStart .plain (some (net.states.size + 1)) {})
        (some rule)).2 (.blockEnd (some net.states.size)) (some rule)
    rw [size_addState] at hnew
    exact hnew.keeps opened

theorem sameLinks_result (hd : net.Draft) : SameLinks b.led b.result where
  old {s st} hs := by
    refine ⟨_, b.getElem?_result_of_led hs, rfl, fun hback => ?_⟩
    obtain ⟨hstart, hblock, hend⟩ := b.hasType_led hd
    have hne {t : Nat} {type : StateType} (ht : b.led.HasType t type)
        (htype : type ≠ .plusLoopBack ∧ type ≠ .starLoopBack) : s ≠ t := by
      rintro rfl
      obtain ⟨st', hst', rfl⟩ := ht
      obtain rfl := Option.some.inj (hs.symm.trans hst')
      exact hback.elim htype.1 htype.2
    rw [edgesOf, edgesPast_of_ne (hne hstart (by decide)) (hne hblock (by decide))
      (hne hend (by decide))]
  new hs hge := by
    obtain ⟨-, rfl⟩ | ⟨_, hold, -⟩ := b.getElem?_result_cases hs
    · rfl
    · exact absurd (lt_size hold) (Nat.not_lt.2 hge)

theorem sameNumbers_result : SameNumbers b.led b.result where
  decisions := by rw [b.sameTables_result]
  number s := by
    rw [linkAt, linkAt, b.getElem?_result]
    split
    · rw [Array.getElem?_eq_none (by rw [b.size_led]; omega)]
      rfl
    · rw [Option.bind_map]
      rfl

theorem links_result (hd : net.Draft) (h : net.Linked ∧ net.Numbered) :
    b.result.Linked ∧ b.result.Numbered := by
  have links : b.opened.Linked := (SameLinks.defineDecision b.defineDecision).linked h.1.withBlock
  have numbers : b.opened.Numbered :=
    (((SameNumbers.addState rfl).trans (.addState rfl)).numbered h.2).defineDecision
      b.defineDecision
  obtain ⟨_, hst, hend⟩ := bypassedPart_eq_ok (b.opened_keeps hd).1 b.bypassedPart
  exact ⟨(b.sameLinks_result hd).linked (links.redirect hst hend),
    b.sameNumbers_result.numbered (SameNumbers.redirect.numbered numbers)⟩

end BypassStages

theorem addBypass_links {rule : Nat} (hd : net.Draft) (h : net.Linked ∧ net.Numbered)
    (hn : net.addBypass rule = .ok net') : net'.Linked ∧ net'.Numbered := by
  obtain ⟨b, rfl⟩ := addBypass_stages hn
  exact b.links_result hd h

theorem withBypasses_links (hd : net.Draft) (h : net.Linked ∧ net.Numbered)
    (hn : net.withBypasses = .ok net') : net'.Linked ∧ net'.Numbered := by
  refine (foldlM_keeps (P := fun m => m.Draft ∧ m.Linked ∧ m.Numbered) (fun _ _ _ _ hb hs =>
    ⟨(addBypass_keeps hb.1 hs).1, addBypass_links hb.1 hb.2 hs⟩) ?_ hn).2
  exact ⟨⟨⟨hd.number, hd.within, hd.start, hd.stop, hd.mode, hd.decision⟩, hd.bare, hd.stops⟩,
    ⟨h.1.within, h.1.ends, h.1.block, h.1.plus, h.1.star⟩, h.2⟩

end bypass

end Network

end GrammarWalk
