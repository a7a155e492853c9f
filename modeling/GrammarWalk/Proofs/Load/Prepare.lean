import GrammarWalk.Load
import GrammarWalk.Proofs.Load.Decode

/-! What the steps after decoding keep: a bypass leaves a draft a draft, a network that passed its
check branches in silence and at decisions only, and judging tail calls changes no more than their
flags. -/

namespace GrammarWalk.Network

variable {net net' : Network}

section bypass

variable {old new : Nat} {kept : Option Nat}

theorem getElem?_redirect {s : Nat} : (net.redirect old new kept).states[s]? =
    net.states[s]?.map fun st => { st with edges := st.edges.mapIdx fun i e =>
      if e.target = old ∧ ¬ (kept = some s ∧ i = 0) then e.retarget new else e } := by
  rw [redirect, Array.getElem?_mapIdx]

theorem getElem?_redirect_of {s : Nat} {st : State} (hs : net.states[s]? = some st) :
    (net.redirect old new kept).states[s]? = some { st with edges := st.edges.mapIdx fun i e =>
      if e.target = old ∧ ¬ (kept = some s ∧ i = 0) then e.retarget new else e } := by
  rw [getElem?_redirect, hs, Option.map_some]

theorem keeps_redirect : Keeps net (net.redirect old new kept) :=
  ⟨fun hs => ⟨_, getElem?_redirect_of hs, rfl, rfl⟩⟩

theorem Draft.redirect (h : net.Draft) (hnew : new < net.states.size) :
    (net.redirect old new kept).Draft := by
  have size : (net.redirect old new kept).states.size = net.states.size := by
    simp [Network.redirect]
  have entry {s : Nat} {st : State} (hs : (net.redirect old new kept).states[s]? = some st) :
      st.number = s ∧ st.Within net.states.size ∧ st.optimized = none := by
    rw [getElem?_redirect] at hs
    obtain ⟨st, hst, rfl⟩ := Option.map_eq_some_iff.1 hs
    have hw : ∀ e ∈ st.edges.mapIdx fun i e =>
        if e.target = old ∧ ¬ (kept = some s ∧ i = 0) then e.retarget new else e,
        e.Within net.states.size := by
      intro e he
      obtain ⟨i, hi, rfl⟩ := List.mem_mapIdx.1 he
      have := (h.within hst).edges _ (List.getElem_mem hi)
      split
      · exact this.retarget hnew
      · exact this
    have hnum := h.number hst
    have hbare := h.bare hst
    refine ⟨hnum, ⟨hw, ?_⟩, hbare⟩
    simp only [State.followed, hbare, Option.getD_none]
    exact hw
  exact ⟨h.toWired.of_keeps keeps_redirect (fun hs =>
    ⟨(entry hs).1, size ▸ (entry hs).2.1⟩) rfl rfl rfl rfl, fun hs => (entry hs).2.2, h.stops⟩

theorem SameRules.redirect : SameRules net (net.redirect old new kept) := ⟨rfl, rfl⟩

/-- The part of a rule that a bypass spans ends in the rule's stop, or in the entry of a loop, of
which the loopback is kept. -/
theorem bypassedPart_eq_ok {rule stop : Nat} (h : net.Draft)
    (hn : net.bypassedPart rule = .ok (stop, kept)) : ∃ st, net.states[stop]? = some st ∧
      ((st.kind = .ruleStop ∧ kept = none) ∨
        ∃ d loopback p, st.kind = .starLoopEntry d (some loopback) p ∧ kept = some loopback) := by
  rw [bypassedPart] at hn
  split at hn
  · simp only [bind_eq_ok, liftM_fault_eq_ok] at hn
    obtain ⟨found, hf, hn⟩ := hn
    cases found with
    | none => exact (throw_ne_ok.1 hn).elim
    | some entry =>
      have hmem : entry ∈ net.states.toList.filter fun st =>
          st.rule == some rule && st.kind.isStarLoopEntry := (mem_of_findM?_eq_ok hf).1
      obtain ⟨i, hi, rfl⟩ :=
        Array.mem_iff_getElem.1 (Array.mem_toList_iff.1 (List.mem_of_mem_filter hmem))
      have hst := Array.getElem?_eq_getElem hi
      simp only at hn
      split at hn
      · obtain ⟨rfl, rfl⟩ := Prod.mk.inj (pure_eq_ok.1 hn)
        rw [h.number hst]
        exact ⟨_, hst, .inr ⟨_, _, _, ‹_›, rfl⟩⟩
      · exact (throw_ne_ok.1 hn).elim
  · simp only [bind_eq_ok, liftM_fault_eq_ok, Fault.ofLookup_eq_ok, pure_eq_ok, Prod.mk.injEq] at hn
    obtain ⟨_, hs, rfl, rfl⟩ := hn
    obtain ⟨st, hst, hstop, -⟩ := h.stop hs
    exact ⟨st, hst, .inl ⟨by simpa [State.isRuleStop] using hstop, rfl⟩⟩

theorem fst_addState {kind : StateKind} {rule : Option Nat} :
    (net.addState kind rule).1 = net.states.size := rfl

def SameTables (net net' : Network) : Prop := net' = { net with states := net'.states }

theorem SameTables.trans {a b c : Network} (h : SameTables a b) (h' : SameTables b c) :
    SameTables a c := by
  rw [SameTables] at h h'
  rw [SameTables, h', h]

theorem sameTables_modify {s : Nat} {f : State → State} : SameTables net (net.modify s f) := rfl

theorem sameTables_addState {kind : StateKind} {rule : Option Nat} :
    SameTables net (net.addState kind rule).2 := rfl

theorem SameTables.sameRules (h : SameTables net net') : SameRules net net' := by
  rw [h]
  exact ⟨rfl, rfl⟩

/-- The network with two states more, which start and end a block. -/
def withBlock (net : Network) (rule : Nat) : Network :=
  ((net.addState (.blockStart .plain (some (net.states.size + 1)) {}) (some rule)).2.addState
    (.blockEnd (some net.states.size)) (some rule)).2

theorem size_withBlock {rule : Nat} : (net.withBlock rule).states.size = net.states.size + 2 := by
  rw [withBlock, size_addState, size_addState]

/-- The network with the edges of a bypass: from the start of the rule into the block, through the
block by the edges of the rule or by a new state that takes the token, and on from its end. -/
def withBypassEdges (net : Network) (rule ruleStart block partEnd : Nat) (body : List Edge)
    (token : Int) : Network :=
  let net := net.modify ruleStart fun st => { st with edges := [.plain block] }
  let net := net.modify block fun st => { st with edges := st.edges ++ body }
  let net := net.addEdge (block + 1) (.plain partEnd)
  let (taking, net) := net.addState .basic (some rule)
  let net := net.addEdge taking (.atom (block + 1) token)
  net.addEdge block (.plain taking)

/-- The edges that state `s` has once those of a bypass are there. -/
def edgesPast (ruleStart block partEnd : Nat) (body : List Edge) (s : Nat) (edges : List Edge) :
    List Edge :=
  (if s = ruleStart then [.plain block] else edges) ++
    if s = block then body ++ [.plain (block + 2)]
    else if s = block + 1 then [.plain partEnd] else []

/-- The bypass of a rule in its stages. -/
theorem addBypass_eq {rule : Nat} : net.addBypass rule = (do
    let opened ← match (net.withBlock rule).defineDecision net.states.size with
      | some (_, opened) => pure opened
      | none => throw (.defect (.duplicateDecision net.states.size))
    let (partEnd, kept) ← opened.bypassedPart rule
    let led := opened.redirect partEnd (net.states.size + 1) kept
    let ruleStart ← Fault.ofLookup led.ruleStarts[rule]?
    let first ← led.state ruleStart
    let token ← Fault.ofLookup led.ruleTokens[rule]?
    return led.withBypassEdges rule ruleStart net.states.size partEnd first.edges token) := by
  simp only [addBypass, withBlock, fst_addState, size_addState]
  rfl

section edges

variable {rule ruleStart block partEnd s : Nat} {body edges : List Edge} {token : Int}

theorem mem_edgesPast {e : Edge} (h : e ∈ edgesPast ruleStart block partEnd body s edges) :
    e ∈ edges ∨ e ∈ body ∨ e = .plain block ∨ e = .plain (block + 2) ∨ e = .plain partEnd := by
  grind [edgesPast]

theorem edgesPast_of_ne (hstart : s ≠ ruleStart) (hblock : s ≠ block) (hend : s ≠ block + 1) :
    edgesPast ruleStart block partEnd body s edges = edges := by
  rw [edgesPast, if_neg hstart, if_neg hblock, if_neg hend, List.append_nil]

theorem sameTables_withBypassEdges :
    SameTables net (net.withBypassEdges rule ruleStart block partEnd body token) :=
  sameTables_modify.trans <| sameTables_modify.trans <| sameTables_modify.trans <|
    sameTables_addState.trans <| sameTables_modify.trans sameTables_modify

/-- What the edges of a bypass come to at each state. -/
theorem getElem?_withBypassEdges (hsize : net.states.size = block + 2) :
    (net.withBypassEdges rule ruleStart block partEnd body token).states[s]? =
      if s = block + 2 then some {
        number := s, rule := some rule, kind := .basic, edges := [.atom (block + 1) token] }
      else net.states[s]?.map fun st =>
        { st with edges := edgesPast ruleStart block partEnd body s st.edges } := by
  have entered : (net.modify ruleStart fun st => { st with edges := [.plain block] }).states[s]? =
      net.states[s]?.map fun st =>
        { st with edges := if s = ruleStart then [.plain block] else st.edges } := by
    rw [getElem?_modify]
    obtain rfl | hne := eq_or_ne s ruleStart
    · simp
    · simp [hne, hne.symm]
  rw [withBypassEdges]
  have size1 :=
    (@size_modify net ruleStart fun st => { st with edges := [.plain block] }).trans hsize
  generalize net.modify ruleStart _ = m at entered size1 ⊢
  simp only [addEdge, fst_addState, size_modify, size1, getElem?_modify,
    getElem?_addState_eq, entered]
  obtain rfl | hnew := eq_or_ne s (block + 2)
  · simp [State.addEdge]
  obtain rfl | hblock := eq_or_ne s block
  · cases net.states[s]? <;> simp [State.addEdge, edgesPast]
  obtain rfl | hend := eq_or_ne s (block + 1)
  · cases net.states[block + 1]? <;> simp [State.addEdge, edgesPast]
  · simp [hnew, hnew.symm, hblock, hblock.symm, hend, hend.symm, edgesPast]

end edges

/-- The stages of a bypass: the network with its block, the part of the rule that is spanned, and
what the new edges are made of. -/
structure BypassStages (net : Network) (rule : Nat) where
  (decision partEnd ruleStart : Nat)
  (kept : Option Nat)
  (token : Int)
  (first : State)
  (opened : Network)
  defineDecision : (net.withBlock rule).defineDecision net.states.size = some (decision, opened)
  bypassedPart : opened.bypassedPart rule = .ok (partEnd, kept)
  start : net.ruleStarts[rule]? = some ruleStart
  ruleToken : net.ruleTokens[rule]? = some token
  body : (opened.redirect partEnd (net.states.size + 1) kept).states[ruleStart]? = some first

namespace BypassStages

variable {rule s : Nat} {st : State} (b : net.BypassStages rule)

def led : Network := b.opened.redirect b.partEnd (net.states.size + 1) b.kept

def result : Network :=
  b.led.withBypassEdges rule b.ruleStart net.states.size b.partEnd b.first.edges b.token

def edgesOf (s : Nat) (edges : List Edge) : List Edge :=
  edgesPast b.ruleStart net.states.size b.partEnd b.first.edges s edges

theorem size_opened : b.opened.states.size = net.states.size + 2 := by
  rw [size_of_defineDecision b.defineDecision, size_withBlock]

theorem size_led : b.led.states.size = net.states.size + 2 := by
  rw [led, redirect, Array.size_mapIdx, b.size_opened]

theorem size_result : b.result.states.size = net.states.size + 3 := by
  simp only [result, withBypassEdges, addEdge, size_modify, size_addState, b.size_led]

theorem getElem?_result : b.result.states[s]? = if s = net.states.size + 2 then some {
      number := s, rule := some rule, kind := .basic,
      edges := [.atom (net.states.size + 1) b.token] }
    else b.led.states[s]?.map fun st => { st with edges := b.edgesOf s st.edges } :=
  getElem?_withBypassEdges b.size_led

theorem getElem?_result_of_led (hs : b.led.states[s]? = some st) :
    b.result.states[s]? = some { st with edges := b.edgesOf s st.edges } := by
  have hlt := b.size_led ▸ lt_size hs
  rw [b.getElem?_result, if_neg (Nat.ne_of_lt hlt), hs, Option.map_some]

theorem getElem?_result_cases (hs : b.result.states[s]? = some st) :
    (s = net.states.size + 2 ∧ st = {
      number := s, rule := some rule, kind := .basic,
      edges := [.atom (net.states.size + 1) b.token] }) ∨
    ∃ old, b.led.states[s]? = some old ∧ st = { old with edges := b.edgesOf s old.edges } := by
  rw [b.getElem?_result] at hs
  split at hs
  · exact .inl ⟨‹_›, (Option.some.inj hs).symm⟩
  · obtain ⟨old, hold, rfl⟩ := Option.map_eq_some_iff.1 hs
    exact .inr ⟨old, hold, rfl⟩

theorem sameTables_result : SameTables b.led b.result := sameTables_withBypassEdges

theorem keeps_result : Keeps b.led b.result :=
  ⟨fun hs => ⟨_, b.getElem?_result_of_led hs, rfl, rfl⟩⟩

theorem opened_keeps (h : net.Draft) : b.opened.Draft ∧ SameRules net b.opened :=
  (defineDecision_keeps h.addState.addState b.defineDecision).imp_right
    ((SameRules.addState.trans SameRules.addState).trans ·)

theorem draft_led (h : net.Draft) : b.led.Draft :=
  (b.opened_keeps h).1.redirect (by rw [b.size_opened]; omega)

theorem draft_result (h : net.Draft) : b.result.Draft := by
  have hled := b.draft_led h
  have hpartEnd : b.partEnd < net.states.size + 2 := by
    obtain ⟨_, hst, -⟩ := bypassedPart_eq_ok (b.opened_keeps h).1 b.bypassedPart
    exact b.size_opened ▸ lt_size hst
  have hsize : b.led.states.size ≤ b.result.states.size := by
    rw [b.size_led, b.size_result]
    omega
  have hedges {s : Nat} {st : State} (hs : b.led.states[s]? = some st) :
      ∀ e ∈ b.edgesOf s st.edges, e.Within b.result.states.size := by
    intro e he
    obtain he | he | he := mem_edgesPast he
    · exact ((hled.within hs).edges e he).mono hsize
    · exact ((hled.within b.body).edges e he).mono hsize
    · rw [b.size_result]
      obtain rfl | rfl | rfl := he <;> exact Edge.within_plain.2 (by omega)
  have tables : b.result = { b.led with states := b.result.states } := b.sameTables_result
  refine ⟨hled.toWired.of_keeps b.keeps_result (fun hs => ?_) ?_ ?_ ?_ ?_, fun hs => ?_, ?_⟩
  · obtain ⟨hs, rfl⟩ | ⟨old, hold, rfl⟩ := b.getElem?_result_cases hs
    · have htaken : (Edge.atom (net.states.size + 1) b.token).Within b.result.states.size :=
        ⟨by rw [b.size_result]; exact Nat.lt_add_right 1 (Nat.lt_succ_self _), nofun⟩
      exact ⟨rfl, List.forall_mem_singleton.2 htaken, List.forall_mem_singleton.2 htaken⟩
    · have hnumber := hled.number hold
      refine ⟨hnumber, hedges hold, ?_⟩
      simp only [State.followed, hled.bare hold, Option.getD_none]
      exact hedges hold
  iterate 4 rw [tables]
  · obtain ⟨-, rfl⟩ | ⟨old, hold, rfl⟩ := b.getElem?_result_cases hs
    · rfl
    · have hbare := hled.bare hold
      exact hbare
  · rw [tables]
    exact hled.stops

end BypassStages

theorem addBypass_stages {rule : Nat} (hn : net.addBypass rule = .ok net') :
    ∃ b : net.BypassStages rule, b.result = net' := by
  rw [addBypass_eq] at hn
  split at hn
  rotate_left
  · simp [bind_eq_ok, throw_ne_ok] at hn
  rename_i d opened hdef
  simp only [bind_eq_ok, liftM_fault_eq_ok, Fault.ofLookup_eq_ok, pure_eq_ok, state_eq_ok,
    Prod.exists] at hn
  obtain ⟨_, rfl, partEnd, kept, hpart, ruleStart, hstart, first, hfirst, token, htoken, hn⟩ := hn
  have tables := tables_of_defineDecision hdef
  refine ⟨⟨d, partEnd, ruleStart, kept, token, first, opened, hdef, hpart, ?_, ?_, hfirst⟩, hn⟩
  · rw [redirect, tables] at hstart
    exact hstart
  · rw [redirect, tables] at htoken
    exact htoken

theorem addBypass_keeps {rule : Nat} (h : net.Draft) (hn : net.addBypass rule = .ok net') :
    net'.Draft ∧ SameRules net net' := by
  obtain ⟨b, rfl⟩ := addBypass_stages hn
  exact ⟨b.draft_result h,
    (b.opened_keeps h).2.trans (SameRules.redirect.trans b.sameTables_result.sameRules)⟩

theorem withBypasses_keeps (h : net.Draft) (hn : net.withBypasses = .ok net') :
    net'.Draft ∧ SameRules net net' :=
  foldlM_keeps (P := fun m => m.Draft ∧ SameRules net m)
    (fun _ _ _ _ hb hs => (addBypass_keeps hb.1 hs).imp_right hb.2.trans)
    (b := { net with
      ruleTokens := ((List.range net.ruleCount).map fun (r : Nat) =>
        net.maxToken + r + 1).toArray })
    ⟨⟨⟨h.number, h.within, h.start, h.stop, h.mode, h.decision⟩, h.bare, h.stops⟩, ⟨rfl, rfl⟩⟩ hn

end bypass

/-- Where a state branches: it takes no input, and it decides or is a rule stop. -/
structure Checked (net : Network) : Prop where
  silent : ∀ {s : Nat} {st : State}, net.states[s]? = some st → st.kind ≠ .invalid →
    1 < st.edges.length → st.isSilent = true
  branches : ∀ {s : Nat} {st : State}, net.states[s]? = some st → st.kind ≠ .invalid →
    1 < st.edges.length → st.kind.decision?.isSome = true ∨ st.isRuleStop = true

theorem Checked.isSilent_of_mem (h : net.Checked) {s : Nat} {st : State} {e : Edge}
    (hs : net.states[s]? = some st) (hk : st.kind ≠ .invalid) (hl : 1 < st.edges.length)
    (he : e ∈ st.edges) : e.isSilent = true := by
  have hsilent := h.silent hs hk hl
  rw [State.isSilent, Bool.and_eq_true, List.all_eq_true] at hsilent
  exact hsilent.2 e he

theorem Checked.edges_eq_of_loud (h : net.Checked) {s : Nat} {st : State} {e : Edge}
    (hs : net.states[s]? = some st) (hk : st.kind = .invalid → st.edges.length ≤ 1)
    (he : e ∈ st.edges) (hloud : e.isSilent = false) : st.edges = [e] := by
  have hlength : st.edges.length ≤ 1 := by
    by_contra hmore
    have hsilent := h.isSilent_of_mem hs (mt hk hmore) (Nat.not_le.1 hmore) he
    exact Bool.false_ne_true (hloud.symm.trans hsilent)
  obtain ⟨a, hedges⟩ :=
    List.length_eq_one_iff.1 (Nat.le_antisymm hlength (List.length_pos_of_mem he))
  rw [hedges, List.mem_singleton] at he
  rw [hedges, he]

theorem require_eq_ok {st : State} {b : Bool} {condition : Condition} {u : Unit} :
    require st b condition = .ok u ↔ b = true := by
  cases b <;> simp [require, pure_eq_ok, throw_ne_ok]

theorem Checked.of_check (h : net.check = .ok ()) : net.Checked := by
  rw [check, forM_eq_ok] at h
  have entry {s : Nat} {st : State} (hs : net.states[s]? = some st) (hk : st.kind ≠ .invalid)
      (hl : 1 < st.edges.length) :
      st.isSilent = true ∧ (st.kind.decision?.isSome = true ∨ st.isRuleStop = true) := by
    have hst := h st (Array.mem_toList_iff.2 (Array.mem_of_getElem? hs))
    rw [if_neg hk] at hst
    simp only [checkState, bind_eq_ok, require_eq_ok, decide_eq_true hl, Bool.not_true,
      Bool.or_false, Bool.false_or] at hst
    obtain ⟨-, hsilent, -, -, hst⟩ := hst
    refine ⟨hsilent, ?_⟩
    split at hst
    · exact .inl ‹_›
    · exact .inr (require_eq_ok.1 hst)
  exact ⟨fun hs hk hl => (entry hs hk hl).1, fun hs hk hl => (entry hs hk hl).2⟩

section tails

/-- `e'` is `e`, perhaps with other flags of a tail call. -/
def Judged (e e' : Edge) : Prop :=
  e' = e ∨ ∃ c tail optimizedTail, e = .call c ∧ e' = .call { c with tail, optimizedTail }

theorem judged_of_judgeTail {e e' : Edge} (h : net.judgeTail e = .ok e') : Judged e e' := by
  cases e with
  | call c =>
    simp only [judgeTail, bind_eq_ok, pure_eq_ok] at h
    obtain ⟨tail, -, optimizedTail, -, rfl⟩ := h
    exact .inr ⟨c, tail, optimizedTail, rfl, rfl⟩
  | _ => exact .inl (pure_eq_ok.1 h).symm

theorem Judged.within {n : Nat} {e e' : Edge} (h : Judged e e') (he : e.Within n) :
    e'.Within n := by
  obtain rfl | ⟨c, tail, optimizedTail, rfl, rfl⟩ := h
  · exact he
  · refine ⟨he.1, fun c' hc' => ?_⟩
    obtain rfl := Option.some.inj hc'
    exact he.2 c rfl

theorem within_of_judged {n : Nat} {es es' : List Edge} (h : List.Forall₂ Judged es es')
    (hes : ∀ e ∈ es, e.Within n) : ∀ e ∈ es', e.Within n := by
  induction h with
  | nil => exact hes
  | cons hj _ ih =>
    rw [List.forall_mem_cons] at hes ⊢
    exact ⟨hj.within hes.1, ih hes.2⟩

/-- `st'` is `st` with judged calls. -/
structure JudgedState (st st' : State) : Prop where
  rest : st' = { st with edges := st'.edges, optimized := st'.optimized }
  edges : List.Forall₂ Judged st.edges st'.edges
  optimized : Option.Rel (List.Forall₂ Judged) st.optimized st'.optimized

theorem forall₂_judged {es es' : List Edge}
    (h : List.Forall₂ (fun e e' => net.judgeTail e = .ok e') es es') : List.Forall₂ Judged es es' :=
  h.imp fun _ _ h => judged_of_judgeTail h

/-- Judging tail calls judges every edge of both lists of every state, and keeps everything else. -/
theorem forall₂_withTailCalls (h : net.withTailCalls = .ok net') :
    net' = { net with states := net'.states } ∧ List.Forall₂ (fun st st' =>
      st' = { st with edges := st'.edges, optimized := st'.optimized } ∧
      List.Forall₂ (fun e e' => net.judgeTail e = .ok e') st.edges st'.edges ∧
      Option.Rel (List.Forall₂ fun e e' => net.judgeTail e = .ok e') st.optimized st'.optimized)
        net.states.toList net'.states.toList := by
  simp only [withTailCalls, bind_eq_ok, pure_eq_ok] at h
  obtain ⟨states, h, rfl⟩ := h
  refine ⟨rfl, ?_⟩
  rw [Array.mapM_eq_mapM_toList] at h
  obtain ⟨l, hl, rfl⟩ := map_eq_ok.1 h
  refine (mapM_eq_ok.1 hl).imp fun st st' h => ?_
  simp only [bind_eq_ok, pure_eq_ok] at h
  obtain ⟨edges, hedges, optimized, hoptimized, rfl⟩ := h
  refine ⟨rfl, mapM_eq_ok.1 hedges, ?_⟩
  cases ho : st.optimized with
  | none =>
    rw [ho] at hoptimized
    obtain rfl := pure_eq_ok.1 hoptimized
    exact .none
  | some es =>
    rw [ho] at hoptimized
    obtain ⟨es', hes, rfl⟩ := map_eq_ok.1 hoptimized
    exact .some (mapM_eq_ok.1 hes)

theorem withTailCalls_eq_ok (h : net.withTailCalls = .ok net') :
    net' = { net with states := net'.states } ∧
      List.Forall₂ JudgedState net.states.toList net'.states.toList := by
  obtain ⟨htables, hstates⟩ := forall₂_withTailCalls h
  refine ⟨htables, hstates.imp fun st st' ⟨hrest, hedges, hoptimized⟩ =>
    ⟨hrest, forall₂_judged hedges, ?_⟩⟩
  generalize st.optimized = o at hoptimized
  generalize st'.optimized = o' at hoptimized
  cases hoptimized with
  | none => exact .none
  | some hes => exact .some (forall₂_judged hes)

theorem judged_of_getElem? (h : net.withTailCalls = .ok net') {s : Nat} {st' : State}
    (hs : net'.states[s]? = some st') : ∃ st, net.states[s]? = some st ∧ JudgedState st st' := by
  simpa using getElem?_of_forall₂ (withTailCalls_eq_ok h).2 (by simpa using hs)

theorem getElem?_withTailCalls (h : net.withTailCalls = .ok net') {s : Nat} {st : State}
    (hs : net.states[s]? = some st) : ∃ st', net'.states[s]? = some st' ∧ JudgedState st st' := by
  simpa using getElem?_of_forall₂ (R := fun a b => JudgedState b a) (withTailCalls_eq_ok h).2.flip
    (by simpa using hs)

theorem size_withTailCalls (h : net.withTailCalls = .ok net') :
    net'.states.size = net.states.size := by
  simpa using (withTailCalls_eq_ok h).2.length_eq.symm

theorem JudgedState.within {n : Nat} {st st' : State} (h : JudgedState st st') (hw : st.Within n) :
    st'.Within n := by
  have hedges := within_of_judged h.edges hw.edges
  refine ⟨hedges, ?_⟩
  have ho := h.optimized
  have hf := hw.followed
  rw [State.followed] at hf ⊢
  generalize st.optimized = o at ho hf
  generalize st'.optimized = o' at ho ⊢
  cases ho with
  | none => exact hedges
  | some hes => exact within_of_judged hes hf

theorem Wired.withTailCalls (h : net.Wired) (hn : net.withTailCalls = .ok net') : net'.Wired := by
  obtain ⟨htables, -⟩ := withTailCalls_eq_ok hn
  refine h.of_keeps ⟨fun hs => ?_⟩ (fun {s st'} hs => ?_) (by rw [htables]) (by rw [htables])
    (by rw [htables]) (by rw [htables])
  · obtain ⟨st', hs', hj⟩ := getElem?_withTailCalls hn hs
    exact ⟨st', hs', by rw [hj.rest], by rw [hj.rest]⟩
  · obtain ⟨st, hst, hj⟩ := judged_of_getElem? hn hs
    exact ⟨by rw [← h.number hst, hj.rest], size_withTailCalls hn ▸ hj.within (h.within hst)⟩

theorem Draft.withTailCalls (h : net.Draft) (hn : net.withTailCalls = .ok net') :
    net'.Draft ∧ SameRules net net' := by
  obtain ⟨htables, -⟩ := withTailCalls_eq_ok hn
  have bare {s : Nat} {st' : State} (hs : net'.states[s]? = some st') : st'.optimized = none := by
    obtain ⟨st, hst, hj⟩ := judged_of_getElem? hn hs
    have ho := hj.optimized
    rw [h.bare hst] at ho
    generalize st'.optimized = o at ho ⊢
    cases ho
    rfl
  refine ⟨⟨h.toWired.withTailCalls hn, bare, ?_⟩, ⟨by rw [htables], by rw [htables]⟩⟩
  rw [htables]
  exact h.stops

theorem Judged.target_eq {e e' : Edge} (h : Judged e e') : e'.target = e.target := by
  obtain rfl | ⟨c, tail, optimizedTail, rfl, rfl⟩ := h <;> rfl

theorem Judged.isSilent_eq {e e' : Edge} (h : Judged e e') : e'.isSilent = e.isSilent := by
  obtain rfl | ⟨c, tail, optimizedTail, rfl, rfl⟩ := h <;> rfl

theorem isSilent_of_forall₂ {R : Edge → Edge → Prop}
    (hR : ∀ {e e'}, R e e' → e'.isSilent = e.isSilent) {st st' : State}
    (h : List.Forall₂ R st.edges st'.edges) : st'.isSilent = st.isSilent := by
  rw [State.isSilent, State.isSilent]
  generalize st.edges = es at h
  generalize st'.edges = es' at h
  have hempty : es'.isEmpty = es.isEmpty := by
    rw [Bool.eq_iff_iff, List.isEmpty_iff_length_eq_zero,
      List.isEmpty_iff_length_eq_zero, h.length_eq]
  have hall : es'.all Edge.isSilent = es.all Edge.isSilent := by
    clear hempty
    induction h with
    | nil => rfl
    | cons he _ ih => rw [List.all_cons, List.all_cons, hR he, ih]
  rw [hempty, hall]

theorem JudgedState.isSilent_eq {st st' : State} (h : JudgedState st st') :
    st'.isSilent = st.isSilent :=
  isSilent_of_forall₂ Judged.isSilent_eq h.edges

theorem Checked.withTailCalls (h : net.Checked) (hn : net.withTailCalls = .ok net') :
    net'.Checked := by
  have back {s : Nat} {st' : State} (hs : net'.states[s]? = some st') :
      ∃ st, net.states[s]? = some st ∧
      st'.kind = st.kind ∧ st'.edges.length = st.edges.length ∧ st'.isSilent = st.isSilent := by
    obtain ⟨st, hst, hj⟩ := judged_of_getElem? hn hs
    exact ⟨st, hst, by rw [hj.rest], hj.edges.length_eq.symm, hj.isSilent_eq⟩
  refine ⟨fun hs hk hl => ?_, fun hs hk hl => ?_⟩
  · obtain ⟨st, hst, hkind, hlength, hsilent⟩ := back hs
    rw [hsilent]
    exact h.silent hst (hkind ▸ hk) (hlength ▸ hl)
  · obtain ⟨st, hst, hkind, hlength, -⟩ := back hs
    rw [State.isRuleStop, hkind]
    exact h.branches hst (hkind ▸ hk) (hlength ▸ hl)

end tails

end GrammarWalk.Network

namespace GrammarWalk

/-- The networks of a load: as decoded, with the bypasses if the load is to add them to a parser,
optimized, and with its tail calls judged. The checks come before and after the optimization. -/
theorem loadWords_passes {words : List Wire.Word} {options : LoadOptions} {net : Network}
    (hn : loadWords words options = .ok net) : ∃ decoded bypassed optimized : Network,
      Wire.decode words = .ok decoded ∧
      ((¬ (options.bypass = true ∧ decoded.kind = .parser) ∧ bypassed = decoded) ∨
        (options.bypass = true ∧ decoded.kind = .parser) ∧ decoded.withBypasses = .ok bypassed) ∧
      ((options.optimize = false ∧ optimized = bypassed) ∨
        (options.optimize = true ∧ ∃ changes, bypassed.optimize = .ok (changes, optimized))) ∧
      (options.verify = true → optimized.check = .ok ()) ∧
      optimized.withTailCalls = .ok net := by
  obtain ⟨verify, bypass, optimize⟩ := options
  simp only [loadWords, bind_eq_ok] at hn
  obtain ⟨decoded, hdecode, hn⟩ := hn
  have tails {m : Network} (hm : (do
      if verify then m.check
      liftM m.withTailCalls : Except LoadError Network) = .ok net) :
      (verify = true → m.check = .ok ()) ∧ m.withTailCalls = .ok net := by
    cases verify with
    | true =>
      obtain ⟨_, hcheck, hm⟩ := bind_eq_ok.1 hm
      exact ⟨fun _ => hcheck, liftM_fault_eq_ok.1 hm⟩
    | false => exact ⟨nofun, liftM_fault_eq_ok.1 hm⟩
  have optimizing {m : Network} (hm : (do
      if optimize then
        let r ← liftM m.optimize
        if verify then r.2.check
        liftM r.2.withTailCalls
      else
        if verify then m.check
        liftM m.withTailCalls : Except LoadError Network) = .ok net) : ∃ optimized : Network,
      ((optimize = false ∧ optimized = m) ∨
        (optimize = true ∧ ∃ changes, m.optimize = .ok (changes, optimized))) ∧
      (verify = true → optimized.check = .ok ()) ∧ optimized.withTailCalls = .ok net := by
    cases optimize with
    | false => exact ⟨m, .inl ⟨rfl, rfl⟩, tails hm⟩
    | true =>
      obtain ⟨⟨changes, o⟩, ho, hm⟩ := bind_eq_ok.1 hm
      exact ⟨o, .inr ⟨rfl, changes, liftM_fault_eq_ok.1 ho⟩, tails hm⟩
  have rest {m : Network} (hm : (do
      if verify then m.check
      if optimize then
        let r ← liftM m.optimize
        if verify then r.2.check
        liftM r.2.withTailCalls
      else liftM m.withTailCalls : Except LoadError Network) = .ok net) := optimizing (m := m) <| by
    cases verify <;> cases optimize
    · exact hm
    · exact hm
    · exact hm
    · obtain ⟨_, -, hm⟩ := bind_eq_ok.1 hm
      exact hm
  simp only [Network.prepare] at hn
  split at hn
  · obtain ⟨m, hm, hn⟩ := bind_eq_ok.1 hn
    obtain ⟨o, h⟩ := rest hn
    exact ⟨decoded, m, o, hdecode, .inr ⟨‹_›, hm⟩, h⟩
  · obtain ⟨o, h⟩ := rest hn
    exact ⟨decoded, decoded, o, hdecode, .inl ⟨‹_›, rfl⟩, h⟩

theorem loadWords_eq_ok {words : List Wire.Word} {options : LoadOptions} {net : Network}
    (hn : loadWords words options = .ok net) : ∃ decoded bypassed optimized : Network,
      Wire.decode words = .ok decoded ∧ (bypassed = decoded ∨ decoded.withBypasses = .ok bypassed) ∧
      ((options.optimize = false ∧ optimized = bypassed) ∨
        (options.optimize = true ∧ ∃ changes, bypassed.optimize = .ok (changes, optimized))) ∧
      (options.verify = true → optimized.check = .ok ()) ∧
      optimized.withTailCalls = .ok net := by
  obtain ⟨decoded, bypassed, optimized, hdecode, hbypass, h⟩ := loadWords_passes hn
  exact ⟨decoded, bypassed, optimized, hdecode, hbypass.imp And.right And.right, h⟩

theorem loadWords_checked {words : List Wire.Word} {options : LoadOptions} {net : Network}
    (hverify : options.verify = true) (hn : loadWords words options = .ok net) : net.Checked := by
  obtain ⟨_, _, _, -, -, -, hcheck, htails⟩ := loadWords_eq_ok hn
  exact (Network.Checked.of_check (hcheck hverify)).withTailCalls htails

/-- Before its optimization a network is wired, follows its raw edges, and has a stop for each
rule. -/
theorem bypassed_keeps {words : List Wire.Word} {decoded bypassed : Network}
    (hdecode : Wire.decode words = .ok decoded)
    (hbypass : bypassed = decoded ∨ decoded.withBypasses = .ok bypassed) :
    bypassed.Draft ∧ bypassed.ruleStops.size = bypassed.ruleStarts.size := by
  obtain ⟨hd, hsize⟩ := Wire.decode_keeps hdecode
  obtain rfl | hbypass := hbypass
  · exact ⟨hd, hsize⟩
  · obtain ⟨hd', same⟩ := Network.withBypasses_keeps hd hbypass
    exact ⟨hd', by rw [same.starts, same.stops, hsize]⟩

/-- A network that is loaded without an optimization is wired, follows its raw edges, and has a stop
for each rule. -/
theorem loadWords_keeps {words : List Wire.Word} {options : LoadOptions} {net : Network}
    (hoptions : options.optimize = false) (hn : loadWords words options = .ok net) :
    net.Draft ∧ net.ruleStops.size = net.ruleStarts.size := by
  obtain ⟨decoded, m, o, hdecode, hbypass, ⟨-, rfl⟩ | ⟨ho, -⟩, -, htails⟩ := loadWords_eq_ok hn
  · obtain ⟨hd, hsize⟩ := bypassed_keeps hdecode hbypass
    obtain ⟨hd', same⟩ := hd.withTailCalls htails
    exact ⟨hd', by rw [same.starts, same.stops, hsize]⟩
  · exact nomatch hoptions.symm.trans ho

end GrammarWalk
