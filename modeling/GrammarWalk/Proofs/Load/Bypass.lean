import GrammarWalk.Proofs.Load.Marks

/-! What a bypass of a rule adds to a draft: a block that starts before the rule's edges and ends
before the end of the part that it spans, with the token of the rule as its other way through. -/

namespace GrammarWalk.Network

variable {net net' : Network} {rule start partEnd s old new : Nat} {kept : Option Nat}
  {token : Int} {st : State}

section exits

/-- The last of the edges leads to a loop end, and the one way on from there is into a rule stop. -/
def Exits (net : Network) (edges : List Edge) : Prop :=
  ∃ last out e stop, edges.getLast? = some last ∧ net.states[last.target]? = some out ∧
    out.kind.isLoopEnd = true ∧
    out.isSilent = true ∧ out.edges.head? = some e ∧ net.states[e.target]? = some stop ∧
    stop.isRuleStop = true

theorem exitsToRuleStop_eq_true : net.exitsToRuleStop st = .ok true ↔ net.Exits st.edges := by
  rw [exitsToRuleStop, Exits]
  cases hlast : st.edges.getLast? with
  | none => simp [pure_eq_ok]
  | some last =>
    simp only [bind_eq_ok, state_eq_ok]
    constructor
    · rintro ⟨out, hout, hexit⟩
      split at hexit
      · rename_i hloop
        rw [Bool.and_eq_true] at hloop
        cases hhead : out.edges.head? with
        | none => simp [hhead, pure_eq_ok] at hexit
        | some e =>
          simp only [hhead, bind_eq_ok, state_eq_ok, pure_eq_ok] at hexit
          obtain ⟨stop, hstop, hexit⟩ := hexit
          exact ⟨last, out, e, stop, rfl, hout, hloop.1, hloop.2, hhead, hstop, hexit⟩
      · simp [pure_eq_ok] at hexit
    · rintro ⟨last', out, e, stop, hlast', hout, hend, hsilent, hhead, hstop, hexit⟩
      obtain rfl := Option.some.inj hlast'
      refine ⟨out, hout, ?_⟩
      simp only [hend, hsilent, Bool.and_true, if_true, hhead, bind_eq_ok, state_eq_ok, pure_eq_ok]
      exact ⟨stop, hstop, hexit⟩

end exits

section led

/-- An edge that stays, or is led to `new` instead of `old`. -/
def Led (old new : Nat) (e e' : Edge) : Prop := e' = e ∨ e.target = old ∧ e' = e.retarget new

theorem Led.isSilent_eq {e e' : Edge} (h : Led old new e e') : e'.isSilent = e.isSilent := by
  obtain rfl | ⟨-, rfl⟩ := h
  · rfl
  · cases e <;> rfl

theorem forall₂_led (edges : List Edge) : List.Forall₂ (Led old new) edges (edges.mapIdx fun i e =>
    if e.target = old ∧ ¬ (kept = some s ∧ i = 0) then e.retarget new else e) := by
  refine List.forall₂_iff_get.2 ⟨by simp, fun i hi hi' => ?_⟩
  simp only [List.get_eq_getElem, List.getElem_mapIdx]
  split
  · rename_i hled
    exact .inr ⟨hled.1, rfl⟩
  · exact .inl rfl

theorem Exits.of_led {edges edges' : List Edge} (h : net'.Exits edges')
    (hedges : List.Forall₂ (Led old new) edges edges')
    (hnew : ∀ st', net'.states[new]? = some st' → st'.kind.isLoopEnd = false ∧
      st'.isRuleStop = false)
    (hstate : ∀ {s : Nat} {st' : State}, net'.states[s]? = some st' → st'.kind.isLoopEnd = true ∨
      st'.isRuleStop = true → ∃ st, net.states[s]? = some st ∧ st'.kind = st.kind ∧
      List.Forall₂ (Led old new) st.edges st'.edges) : net.Exits edges := by
  obtain ⟨last, out, e, stop, hlast, hout, hend, hsilent, hhead, hstop, hexit⟩ := h
  -- an edge into a state of these kinds leads where it led before
  have same {f' : Edge} {es es' : List Edge} {i : Nat} (hes : List.Forall₂ (Led old new) es es')
      (hf : es'[i]? = some f') {st' : State} (hs : net'.states[f'.target]? = some st')
      (hkind : st'.kind.isLoopEnd = true ∨ st'.isRuleStop = true) : es[i]? = some f' := by
    obtain ⟨f, hf, rfl | ⟨-, rfl⟩⟩ := getElem?_of_forall₂ hes hf
    · exact hf
    · rw [Edge.target_retarget] at hs
      simp [hnew _ hs] at hkind
  rw [List.getLast?_eq_getElem?] at hlast
  rw [List.head?_eq_getElem?] at hhead
  have hlast := same hedges hlast hout (.inl hend)
  rw [← hedges.length_eq, ← List.getLast?_eq_getElem?] at hlast
  obtain ⟨out', hout', hkind, hled⟩ := hstate hout (.inl hend)
  have hhead := same hled hhead hstop (.inr hexit)
  rw [← List.head?_eq_getElem?] at hhead
  obtain ⟨stop', hstop', hstopKind, -⟩ := hstate hstop (.inr hexit)
  refine ⟨last, out', e, stop', hlast, hout', hkind ▸ hend, ?_, hhead, hstop', ?_⟩
  · rw [← isSilent_of_forall₂ Led.isSilent_eq hled]
    exact hsilent
  · rwa [State.isRuleStop, hstopKind] at hexit

end led

section spans

/-- The end of the part of a rule that a bypass spans: the rule's stop, or of a precedence rule the
entry of the loop that decides whether to go on. -/
inductive Spans (net : Network) (rule : Nat) : Nat → Prop
  | rule {stop : Nat} : net.isPrecedenceRule rule = false → net.ruleStops[rule]? = some stop →
      Spans net rule stop
  | before {entry loopback : Nat} {d : Decision} {p : Bool} {st : State} :
      net.isPrecedenceRule rule = true →
      net.states[entry]? = some st → st.rule = some rule →
      st.kind = .starLoopEntry d (some loopback) p →
      net.Exits st.edges → Spans net rule entry

theorem spans_of_bypassedPart (h : net.Draft) (hn : net.bypassedPart rule = .ok (partEnd, kept)) :
    net.Spans rule partEnd := by
  rw [bypassedPart] at hn
  split at hn
  · rename_i hprecedence
    simp only [bind_eq_ok, liftM_fault_eq_ok] at hn
    obtain ⟨found, hf, hn⟩ := hn
    cases found with
    | none => exact (throw_ne_ok.1 hn).elim
    | some entry =>
      obtain ⟨hmem, hexits⟩ := mem_of_findM?_eq_ok hf
      obtain ⟨hmem, hentry⟩ := List.mem_filter.1 hmem
      obtain ⟨i, hi⟩ := Array.mem_iff_getElem?.1 (Array.mem_toList_iff.1 hmem)
      rw [Bool.and_eq_true, beq_iff_eq] at hentry
      simp only at hn
      split at hn
      · obtain ⟨rfl, -⟩ := Prod.mk.inj (pure_eq_ok.1 hn)
        rw [h.number hi]
        exact .before hprecedence hi hentry.1 ‹_› (exitsToRuleStop_eq_true.1 hexits)
      · exact (throw_ne_ok.1 hn).elim
  · rename_i hprecedence
    simp only [bind_eq_ok, liftM_fault_eq_ok, Fault.ofLookup_eq_ok, pure_eq_ok, Prod.mk.injEq] at hn
    obtain ⟨stop, hs, rfl, -⟩ := hn
    exact .rule (by simpa using hprecedence) hs

end spans

/-- `net'` is `net` with a bypass of the rule, from its start to the end of the part that is
spanned. -/
structure Bypassed (rule start partEnd : Nat) (token : Int) (net net' : Network) : Prop where
  ruleStart : net.ruleStarts[rule]? = some start
  ruleToken : net.ruleTokens[rule]? = some token
  spans : net.Spans rule partEnd
  old : ∀ {s : Nat} {st : State}, net.states[s]? = some st → s ≠ start → ∃ edges,
    net'.states[s]? = some { st with edges } ∧
    List.Forall₂ (Led partEnd (net.states.size + 1)) st.edges edges
  entered : ∀ {st : State}, net.states[start]? = some st →
    net'.states[start]? = some { st with edges := [.plain net.states.size] }
  block : ∀ {st : State}, net.states[start]? = some st → ∃ body,
    List.Forall₂ (Led partEnd (net.states.size + 1)) st.edges body ∧
    net'.states[net.states.size]? = some {
      number := net.states.size
      rule := some rule
      kind := .blockStart .plain (some (net.states.size + 1)) { number := some net.decisions.size }
      edges := body ++ [.plain (net.states.size + 2)] }
  stop : net'.states[net.states.size + 1]? = some {
    number := net.states.size + 1
    rule := some rule
    kind := .blockEnd (some net.states.size)
    edges := [.plain partEnd] }
  taking : net'.states[net.states.size + 2]? = some {
    number := net.states.size + 2
    rule := some rule
    kind := .basic
    edges := [.atom (net.states.size + 1) token] }
  size : net'.states.size = net.states.size + 3
  marks : SameMarks net net'
  rest : net' = { net with states := net'.states, decisions := net.decisions.push net.states.size }

section opened

variable {opened : Network} {d : Nat}

/-- The network with the block of a bypass, before any edge leads into it. -/
structure Opened (net opened : Network) (rule : Nat) : Prop where
  old : ∀ {s : Nat} {st : State}, net.states[s]? = some st → opened.states[s]? = some st
  block : opened.states[net.states.size]? = some {
    number := net.states.size
    rule := some rule
    kind := .blockStart .plain (some (net.states.size + 1)) { number := some net.decisions.size } }
  stop : opened.states[net.states.size + 1]? = some {
    number := net.states.size + 1
    rule := some rule
    kind := .blockEnd (some net.states.size) }
  size : opened.states.size = net.states.size + 2
  marks : SameMarks net opened
  rest : opened = { net with
    states := opened.states, decisions := net.decisions.push net.states.size }

theorem opened_of_defineDecision
    (hn : (net.withBlock rule).defineDecision net.states.size = some (d, opened)) :
    Opened net opened rule := by
  have marks : SameMarks net opened :=
    ((SameShown.addState rfl).trans (.addState rfl)).trans (.defineDecision hn)
  obtain ⟨_, _, -, -, -, -, rfl⟩ := defineDecision_eq_some hn
  refine ⟨fun {s st} hs => ?_, ?_, ?_, ?_, marks, rfl⟩
  · exact (getElem?_modify_of_ne (Nat.ne_of_gt (lt_size hs))).trans
      (getElem?_addState (getElem?_addState hs))
  · exact getElem?_modify_self (getElem?_addState getElem?_addState_new)
  · have hnew :=
      @getElem?_addState_new (net.addState (.blockStart .plain (some (net.states.size + 1)) {})
        (some rule)).2 (.blockEnd (some net.states.size)) (some rule)
    rw [size_addState] at hnew
    exact (getElem?_modify_of_ne (Nat.succ_ne_self _).symm).trans hnew
  · exact size_modify.trans size_withBlock

theorem Opened.cases (h : Opened net opened rule) (hs : opened.states[s]? = some st) :
    net.states[s]? = some st ∨
    st.kind.isLoopEnd = false ∧ st.isRuleStop = false ∧ st.kind.isStarLoopEntry = false := by
  obtain hlt | rfl | rfl : s < net.states.size ∨ s = net.states.size ∨ s = net.states.size + 1 := by
    have hlt := lt_size hs
    have hsize := h.size
    omega
  · have hold := Array.getElem?_eq_getElem hlt
    exact .inl (hold.trans ((h.old hold).symm.trans hs))
  · obtain rfl := Option.some.inj (h.block.symm.trans hs)
    exact .inr ⟨rfl, rfl, rfl⟩
  · obtain rfl := Option.some.inj (h.stop.symm.trans hs)
    exact .inr ⟨rfl, rfl, rfl⟩

theorem Opened.spans (h : Opened net opened rule) (hs : opened.Spans rule partEnd) :
    net.Spans rule partEnd := by
  cases hs with
  | rule hnot hstop =>
    have hstops : opened.ruleStops = net.ruleStops := by rw [h.rest]
    exact .rule (h.marks.isPrecedenceRule_eq ▸ hnot) (hstops ▸ hstop)
  | before hprecedence hentry hrule hkind hexits =>
    obtain hold | ⟨-, -, hnot⟩ := h.cases hentry
    · refine .before (h.marks.isPrecedenceRule_eq ▸ hprecedence) hold hrule hkind ?_
      have hsame (es : List Edge) :
          List.Forall₂ (Led (net.states.size + 1) (net.states.size + 1)) es es :=
        List.forall₂_same.2 fun e _ => .inl rfl
      refine hexits.of_led (hsame _) (fun st' hst' => ?_) fun {s st'} hst' hkind' => ?_
      · obtain rfl := Option.some.inj (h.stop.symm.trans hst')
        exact ⟨rfl, rfl⟩
      · obtain hold | ⟨hloop, hstop, -⟩ := h.cases hst'
        · exact ⟨st', hold, rfl, hsame _⟩
        · simp [hloop, hstop] at hkind'
    · rw [hkind] at hnot
      cases hnot

end opened

/-- What a bypass adds. -/
theorem bypassed_of_addBypass (h : net.Draft) (hn : net.addBypass rule = .ok net') :
    ∃ start partEnd token, Bypassed rule start partEnd token net net' := by
  have marks : SameMarks net net' := .addBypass hn
  obtain ⟨b, rfl⟩ := addBypass_stages hn
  have hopened := opened_of_defineDecision b.defineDecision
  obtain ⟨first, hfirst, -⟩ := h.start b.start
  have hlt : b.ruleStart < net.states.size := lt_size hfirst
  -- the states of `opened` with their edges led to the end of the block, and then with the new
  -- edges
  have hresult {s : Nat} {st : State} (hs : b.opened.states[s]? = some st) : ∃ edges,
      List.Forall₂ (Led b.partEnd (net.states.size + 1)) st.edges edges ∧
      b.led.states[s]? = some { st with edges } ∧
      b.result.states[s]? = some { st with edges := b.edgesOf s edges } :=
    ⟨_, forall₂_led _, getElem?_redirect_of hs, b.getElem?_result_of_led (getElem?_redirect_of hs)⟩
  refine ⟨b.ruleStart, b.partEnd, b.token, b.start, b.ruleToken,
    hopened.spans (spans_of_bypassedPart (b.opened_keeps h).1 b.bypassedPart), fun {s u} hs hne =>
    ?_, fun {u} hs => ?_, fun {u} hs => ?_, ?_, ?_, b.size_result, marks, ?_⟩
  · obtain ⟨edges, hled, -, hs'⟩ := hresult (hopened.old hs)
    have hlt := lt_size hs
    refine ⟨edges, ?_, hled⟩
    rwa [BypassStages.edgesOf, edgesPast_of_ne hne (by omega) (by omega)] at hs'
  · obtain ⟨edges, -, -, hs'⟩ := hresult (hopened.old hs)
    simpa [BypassStages.edgesOf, edgesPast, Nat.ne_of_lt hlt, Nat.ne_of_lt (Nat.lt_succ_of_lt hlt)]
      using hs'
  · obtain ⟨edges, hled, hs', -⟩ := hresult (hopened.old hs)
    obtain rfl := congrArg State.edges (Option.some.inj (b.body.symm.trans hs'))
    obtain ⟨none', hnone, -, hblock⟩ := hresult hopened.block
    obtain rfl := List.forall₂_nil_left_iff.1 hnone
    refine ⟨b.first.edges, hled, ?_⟩
    simpa [BypassStages.edgesOf, edgesPast, Nat.ne_of_gt hlt] using hblock
  · obtain ⟨none', hnone, -, hstop⟩ := hresult hopened.stop
    obtain rfl := List.forall₂_nil_left_iff.1 hnone
    simpa [BypassStages.edgesOf, edgesPast, Nat.ne_of_gt (Nat.lt_succ_of_lt hlt)] using hstop
  · rw [b.getElem?_result, if_pos rfl]
  · rw [b.sameTables_result, BypassStages.led, redirect, hopened.rest]

end GrammarWalk.Network
