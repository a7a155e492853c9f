import GrammarWalk.Proofs.Load.Decode
import GrammarWalk.Proofs.Network.Linking
import GrammarWalk.SymbolSet.Lemmas

/-! Reading is safe: every number of a state is checked when it is met, and what is looked up later
is looked up by a number that was checked. -/

namespace GrammarWalk

namespace Wire

open Reader Network

variable {net : Network}

theorem Row.isBlock_of_blockStop? {r : Row} {t : Nat} (h : r.kind.blockStop? = some t) :
    r.isBlock = true ∧ r.link = some t := by
  obtain ⟨type, rule, link⟩ := r
  cases type <;> first | exact ⟨rfl, h⟩ | exact nomatch h

theorem safeRead_refer {what : Reference} {s : Nat} :
    SafeRead (refer net what s) fun _ => s < net.states.size := by
  unfold refer
  split
  · exact safeRead_pure ‹_›
  · exact safeRead_reject

theorem safeRead_state {s : Nat} (h : s < net.states.size) :
    SafeRead (liftM (net.state s)) fun st => net.states[s]? = some st :=
  safeRead_liftM_fault (returns_state h)

theorem safeRead_readRow : SafeRead readRow fun _ => True := by
  refine safeRead_tagged.bind fun type _ => safeRead_ite (safeRead_pure trivial) ?_
  refine (safeRead_word.bind fun _ _ => safeRead_pure trivial).bind (P := fun _ => True)
    fun rule _ => ?_
  exact safeRead_ite (safeRead_word.bind fun _ _ => safeRead_pure trivial) (safeRead_pure trivial)

/-- The states as they stand in the stream; a link to the state that closes a loop or ends a block
has been checked. -/
theorem safeRead_rows : SafeRead (readStates net) fun net' => ∃ rows : List Row,
    net' = { net with states := rows.toArray.mapIdx fun number r =>
      { number, rule := r.rule, kind := r.kind } } ∧
    ∀ r ∈ rows, (r.isLoop || r.isBlock) = true → ∀ t, r.link = some t → t < net'.states.size := by
  refine (safeRead_counted safeRead_readRow).bind fun rows _ => ?_
  extract_lets states net'
  have link (what : Reference) (b : Bool) (r : Row) : SafeRead
      (if b = true then r.link.forM (refer net' what) else pure PUnit.unit)
      fun _ => b = true → ∀ t, r.link = some t → t < net'.states.size := by
    cases b with
    | false => exact safeRead_pure nofun
    | true =>
      rw [if_pos rfl]
      cases hr : r.link with
      | none => exact safeRead_pure fun _ => nofun
      | some t => exact safeRead_refer.imp fun _ ht _ t' ht' => Option.some.inj ht' ▸ ht
  refine (safeRead_forM (fun r => link _ r.isLoop r) rows).bind fun _ hloops => ?_
  refine (safeRead_forM (fun r => link _ r.isBlock r) rows).bind fun _ hblocks => ?_
  refine safeRead_pure ⟨rows, rfl, fun r hr h => ?_⟩
  exact (Bool.or_eq_true_iff.1 h).elim (hloops r hr) (hblocks r hr)

theorem safeRead_readStates : SafeRead (readStates net) BlocksEnd := by
  refine safeRead_rows.imp fun net' ⟨rows, hnet, hlinks⟩ => ⟨fun {s st} hs t ht => ?_⟩
  rw [hnet] at hs
  obtain ⟨r, hr, rfl⟩ := Option.map_eq_some_iff.1 (Array.getElem?_mapIdx.symm.trans hs)
  obtain ⟨hblock, hlink⟩ := Row.isBlock_of_blockStop? ht
  exact hlinks r (by simpa using Array.mem_of_getElem? hr) (by rw [hblock, Bool.or_true]) t hlink

theorem safeRead_readNonGreedy (h : net.BlocksEnd) : SafeRead (readNonGreedy net) BlocksEnd := by
  refine safeRead_word.bind fun s _ => safeRead_refer.bind fun _ hs => ?_
  refine (safeRead_state hs).bind fun st _ => ?_
  cases st.kind.decision? with
  | none => exact safeRead_reject
  | some d =>
    exact safeRead_pure (h.modify fun st _ t ht => StateKind.blockStop?_mapDecision ▸ ht)

theorem safeRead_readPrecedenceRule (h : net.BlocksEnd) :
    SafeRead (readPrecedenceRule net) BlocksEnd := by
  refine safeRead_word.bind fun s _ => safeRead_refer.bind fun _ hs => ?_
  refine (safeRead_state hs).bind fun st _ => ?_
  split
  · exact safeRead_pure (h.modify fun _ _ _ ht => nomatch ht)
  · exact safeRead_reject

theorem safeRead_readRule {version : Version} (h : net.BlocksEnd) :
    SafeRead (readRule version net) BlocksEnd := by
  refine safeRead_word.bind fun s _ => safeRead_refer.bind fun _ hs => ?_
  refine (safeRead_state hs).bind fun st _ => safeRead_guard ?_
  extract_lets net'
  split
  · exact safeRead_pure ⟨h.stop⟩
  · refine safeRead_word.bind fun type _ => safeRead_ite ?_ (safeRead_pure ⟨h.stop⟩)
    exact safeRead_word.bind fun _ _ => safeRead_pure ⟨h.stop⟩

theorem safe_linkStops (h : net.Draft) (hends : net.BlocksEnd) :
    Safe (linkStops net) BlocksEnd := by
  refine (safe_forM fun st _ => (safe_check _).imp fun _ _ => trivial).bind fun _ _ => ?_
  refine (safe_foldlM (Q := fun m => m.ruleStarts = net.ruleStarts ∧
    m.states.size = net.states.size ∧ m.BlocksEnd) (fun rule hrule m ⟨hstarts, hsize, hm⟩ => ?_)
    ⟨rfl, rfl, hends⟩).imp fun _ hm => hm.2.2
  obtain ⟨start, hstart⟩ : ∃ start, m.ruleStarts[rule]? = some start := by
    rw [hstarts]
    exact ⟨_, Array.getElem?_eq_getElem (List.mem_range.1 hrule)⟩
  have hlt : start < m.states.size := by
    obtain ⟨st, hst, -⟩ := h.start (hstarts ▸ hstart)
    exact hsize ▸ lt_size hst
  refine (safe_check _).bind fun stop _ => ?_
  refine (returns_ofLookup hstart rfl).safe.bind fun s hs => ?_
  subst hs
  refine (returns_state (by exact hlt)).safe.bind fun _ _ =>
    safe_pure ⟨hstarts, size_modify.trans hsize, ?_⟩
  refine BlocksEnd.modify (⟨hm.stop⟩ : BlocksEnd { m with ruleStops := m.ruleStops.push stop })
    fun st _ t ht => ?_
  split at ht
  · exact nomatch ht
  · exact ht

theorem safeRead_readMode (h : net.BlocksEnd) : SafeRead (readMode net) BlocksEnd :=
  safeRead_word.bind fun _ _ => safeRead_refer.bind fun _ hs => (safeRead_state hs).bind fun _ _ =>
    safeRead_guard (safeRead_pure ⟨h.stop⟩)

theorem safeRead_readSet {bound : Reader Int} (h : SafeRead bound (0 ≤ ·)) :
    SafeRead (readSet bound) fun set => Symbol.ruleEnd ∉ set := by
  refine safeRead_word.bind fun n _ => safeRead_word.bind fun atEnd _ =>
    safeRead_iterate (fun set hset => h.bind fun lo hlo => h.bind fun hi _ => safeRead_pure ?_) n ?_
  · rw [SymbolSet.mem_insertSpan, not_or]
    refine ⟨fun hin => ?_, hset⟩
    have hend : Symbol.ruleEnd < 0 := by decide
    omega
  · by_cases hzero : atEnd = 0 <;> simp [hzero, Symbol.ruleEnd, Symbol.eof]

theorem safeRead_readWideBound : SafeRead readWideBound (0 ≤ ·) := by
  have double : SafeRead Reader.double fun _ => True :=
    safeRead_word.bind fun _ _ => safeRead_word.bind fun _ _ => safeRead_pure trivial
  exact safeRead_offset.bind fun _ _ => double.bind fun value _ =>
    safeRead_ite (safeRead_pure (Int.natCast_nonneg value)) safeRead_fail

theorem safeRead_readSets {version : Version} :
    SafeRead (readSets version) fun sets => ∀ set ∈ sets, Symbol.ruleEnd ∉ set := by
  have narrow := safeRead_counted (safeRead_readSet (safeRead_word.bind fun w _ =>
    safeRead_pure (Int.natCast_nonneg w)))
  refine narrow.bind fun sets hsets => safeRead_ite ?_ (safeRead_pure hsets)
  exact (safeRead_counted (safeRead_readSet safeRead_readWideBound)).bind fun wide hwide =>
    safeRead_pure (List.forall_mem_append.2 ⟨hsets, hwide⟩)

theorem safeRead_makeEdge {sets : List SymbolSet} {kind : EdgeKind} {target a b c : Nat} :
    SafeRead (makeEdge net sets kind target a b c) fun _ => True := by
  have setAt : SafeRead (setAt sets a) fun _ => True := by
    unfold Wire.setAt
    split
    · exact safeRead_pure trivial
    · exact safeRead_reject
  cases kind with
  | call => exact safeRead_refer.bind fun _ _ => safeRead_pure trivial
  | set | notSet => exact setAt.bind fun _ _ => safeRead_pure trivial
  | _ => exact safeRead_pure trivial

theorem safeRead_readEdge {sets : List SymbolSet} (h : net.BlocksEnd) :
    SafeRead (readEdge sets net) BlocksEnd := by
  refine safeRead_offset.bind fun _ _ => safeRead_word.bind fun source _ => ?_
  refine safeRead_refer.bind fun _ hsource => safeRead_word.bind fun _ _ => ?_
  refine safeRead_refer.bind fun _ _ => safeRead_word.bind fun tag _ => ?_
  refine safeRead_word.bind fun _ _ => safeRead_word.bind fun _ _ =>
    safeRead_word.bind fun _ _ => ?_
  cases EdgeKind.ofTag? tag with
  | none => exact safeRead_fail
  | some kind =>
    refine safeRead_makeEdge.bind fun _ _ => (safeRead_state hsource).bind fun _ _ => ?_
    exact safeRead_pure (h.modify (f := (·.addEdge _)) fun _ _ _ ht => ht)

theorem safeRead_readDecision : SafeRead (readDecision net) fun _ => True := by
  refine safeRead_word.bind fun s _ => safeRead_refer.bind fun _ hs => ?_
  refine (safeRead_state hs).bind fun st _ => ?_
  refine safeRead_ite (safeRead_reject.bind (P := fun _ => True) fun _ _ => ?_) ?_
  all_goals
    cases net.defineDecision s with
    | none => exact safeRead_reject
    | some numbered => exact safeRead_pure trivial

theorem safeRead_readCommand : SafeRead readCommand fun _ => True := by
  have operand : SafeRead Reader.operand fun _ => True :=
    safeRead_word.bind fun _ _ => safeRead_pure trivial
  exact safeRead_tagged.bind fun _ _ => operand.bind fun _ _ => operand.bind fun _ _ =>
    safeRead_pure trivial

theorem safeRead_readCommands {version : Version} :
    SafeRead (readCommands version net) fun _ => True := by
  unfold readCommands
  split
  · exact safeRead_pure trivial
  · refine safeRead_ite ?_ (safeRead_pure trivial)
    exact (safeRead_counted safeRead_readCommand).bind fun _ _ => safeRead_pure trivial

theorem safeRead_readVersion : SafeRead readVersion fun _ => True := by
  have identifier : SafeRead Reader.identifier fun _ => True :=
    (safeRead_times safeRead_word identifierWords).bind fun _ _ => safeRead_pure trivial
  refine safeRead_word.bind fun found _ => ?_
  refine safeRead_ite (safeRead_fail.bind (P := fun _ => True) fun _ _ => ?_) ?_
  all_goals
    refine identifier.bind fun id _ => ?_
    cases Version.ofIdentifier? id with
    | none => exact safeRead_fail
    | some version => exact safeRead_pure trivial

theorem safeRead_section (net : Network) {step : Network → Reader Network} {P I : Network → Prop}
    (hsafe : ∀ a : Network, P a → SafeRead (step a) P)
    (hkeeps : ∀ a c a' c', I a → step a c = .ok (a', c') → I a') (h : P net ∧ I net) :
    SafeRead (countedSteps step net) fun net' => P net' ∧ I net' :=
  safeRead_countedSteps (fun a ha => (hsafe a ha.1).and fun c a' c' hs =>
    hkeeps a c a' c' ha.2 hs) h

theorem safeRead_readNetwork : SafeRead readNetwork fun _ => True := by
  -- up to the links of the rules there are no stops, and after them each rule has its own
  have early {step : Network → Reader Network} {m : Network}
      (hsafe : ∀ a : Network, a.BlocksEnd → SafeRead (step a) BlocksEnd)
      (hkeeps : ∀ (a : Network) c a' c', a.Draft → step a c = .ok (a', c') →
        a'.Draft ∧ a'.ruleStops = a.ruleStops) :=
    safeRead_section m (I := fun a => a.Draft ∧ a.ruleStops = #[]) hsafe
      fun a c a' c' ha hs => (hkeeps a c a' c' ha.1 hs).imp_right (·.trans ha.2)
  have late {step : Network → Reader Network} {P : Network → Prop} {m : Network}
      (hsafe : ∀ a : Network, P a → SafeRead (step a) P)
      (hkeeps : ∀ (a : Network) c a' c', a.Draft → step a c = .ok (a', c') →
        a'.Draft ∧ SameRules a a') :=
    safeRead_section m hsafe fun a c a' c' ha hs => (hkeeps a c a' c' ha hs).1
  refine safeRead_readVersion.bind fun version _ => safeRead_tagged.bind fun kind _ => ?_
  refine safeRead_word.bind fun maxToken _ => ?_
  refine (safeRead_readStates.and fun _ _ _ => readStates_keeps ⟨rfl, rfl, rfl, rfl⟩).bind
    fun n1 h1 => ?_
  refine (early (fun _ => safeRead_readNonGreedy) (fun _ _ _ _ => readNonGreedy_keeps) h1).bind
    fun n2 h2 => ?_
  refine (early (fun _ => safeRead_readPrecedenceRule) (fun _ _ _ _ => readPrecedenceRule_keeps)
    h2).bind fun n3 h3 => ?_
  refine (early (fun _ => safeRead_readRule) (fun _ _ _ _ => readRule_keeps) h3).bind
    fun n4 h4 => ?_
  refine (safeRead_liftM <| (safe_linkStops h4.2.1 h4.1).and fun _ h =>
    (linkStops_keeps h4.2.1 h4.2.2 h).1).bind fun n5 h5 => ?_
  refine (late (fun _ => safeRead_readMode) (fun _ _ _ _ => readMode_keeps) h5).bind fun n6 h6 => ?_
  refine safeRead_readSets.bind fun sets _ => ?_
  refine (late (fun _ => safeRead_readEdge) (fun _ _ _ _ => readEdge_keeps) h6).bind fun n7 h7 => ?_
  refine (safeRead_liftM_fault <| (returns_withReturnEdges h7.2.toWired h7.1).and fun p hp =>
    (h7.2.withReturnEdges (n := p.1) hp).1).bind fun ⟨_, n8⟩ h8 => ?_
  refine (safeRead_liftM <| (safe_linkBlocks h8.2 h8.1).and fun _ hs =>
    (h8.2.linkBlocks hs).1).bind fun n9 h9 => ?_
  refine (safeRead_liftM_fault <| (returns_linkLoops h9.2).and fun _ hs =>
    (h9.2.linkLoops hs).1).bind fun n10 h10 => ?_
  refine (late (P := fun _ => True) (fun _ _ => safeRead_readDecision)
    (fun _ _ _ _ => readDecision_keeps) h10).bind fun n11 h11 => ?_
  refine (safeRead_readCommands.and fun _ _ _ hs => (readCommands_keeps h11.2 hs).1).bind
    fun n12 h12 => ?_
  exact safeRead_liftM_fault (returns_markPrecedences h12.2)

theorem safe_decode {words : List Word} : Safe (decode words) fun net =>
    net.Draft ∧ net.ruleStops.size = net.ruleStarts.size := by
  refine ⟨fun f h => ?_, fun _ => decode_keeps⟩
  have hread := (safeRead_readNetwork { offset := 0, rest := unshift words }).noFault f
  unfold decode at h
  cases hr : readNetwork { offset := 0, rest := unshift words } with
  | ok p => exact nomatch hr ▸ h
  | error e =>
    rw [hr] at h hread
    exact hread (by cases h; rfl)

end Wire

end GrammarWalk
