import GrammarWalk.Proofs.Load.Prepare
import GrammarWalk.Proofs.Load.Reading
import GrammarWalk.Proofs.Network.Fixpoint

/-! A load of any words ends in a network, a format error or a defect, and never in a fault: every
number that a later pass looks up was checked when it was read, and each pass keeps the numbers in
range. -/

namespace GrammarWalk

namespace Network

variable {net : Network}

theorem safe_bypassedPart (h : net.Draft) {rule : Nat} (hr : rule < net.ruleStops.size) :
    Safe (net.bypassedPart rule) fun _ => True := by
  rw [bypassedPart]
  split
  · have hfind : Returns (net.precedencePrefixEnd rule) fun _ => True := by
      refine returns_findM? fun st hst => ?_
      obtain ⟨i, hi, rfl⟩ :=
        Array.mem_iff_getElem.1 (Array.mem_toList_iff.1 (List.mem_of_mem_filter hst))
      exact returns_exitsToRuleStop h.toWired (Array.getElem?_eq_getElem hi)
    refine hfind.safe.bind fun found _ => ?_
    cases found with
    | none => exact safe_defect
    | some entry =>
      dsimp only
      split
      · exact safe_pure trivial
      · exact safe_defect
  · exact (returns_ofLookup (P := fun _ => True)
      (Array.getElem?_eq_getElem hr) trivial).safe.bind fun _ _ => safe_pure trivial

theorem safe_addBypass (h : net.Draft) {rule : Nat} (hstart : rule < net.ruleStarts.size)
    (hstop : rule < net.ruleStops.size) (htoken : rule < net.ruleTokens.size) :
    Safe (net.addBypass rule) fun net' => net'.ruleTokens = net.ruleTokens := by
  rw [addBypass_eq]
  split
  rotate_left
  · exact safe_defect.bind (P := fun _ => False) fun _ h => h.elim
  rename_i opened hdef
  obtain ⟨hopened, same⟩ := defineDecision_keeps h.addState.addState hdef
  have starts : opened.ruleStarts = net.ruleStarts := same.starts
  have tokens : opened.ruleTokens = net.ruleTokens := by rw [tables_of_defineDecision hdef]; rfl
  refine (safe_pure (P := (opened = ·)) rfl).bind fun _ heq => ?_
  subst heq
  refine (safe_bypassedPart hopened (same.stops ▸ hstop)).bind fun p _ => ?_
  have hrule : opened.ruleStarts[rule]? = some net.ruleStarts[rule] := by
    rw [starts]
    exact Array.getElem?_eq_getElem hstart
  obtain ⟨st, hst, -⟩ := hopened.start hrule
  refine (returns_ofLookup (P := (net.ruleStarts[rule] = ·)) hrule rfl).safe.bind fun s hs => ?_
  subst hs
  refine (returns_state (by rw [redirect, Array.size_mapIdx]; exact lt_size hst)).safe.bind
    fun first _ => ?_
  refine (returns_ofLookup (P := fun _ => True) (Array.getElem?_eq_getElem
    (show rule < opened.ruleTokens.size from tokens ▸ htoken)) trivial).safe.bind
    fun token _ => safe_pure ?_
  rw [sameTables_withBypassEdges]
  exact tokens

theorem safe_withBypasses (h : net.Draft) (hsize : net.ruleStops.size = net.ruleStarts.size) :
    Safe net.withBypasses fun net' => net'.Draft ∧ net'.ruleStops.size = net'.ruleStarts.size := by
  refine Safe.imp (P := fun m => m.Draft ∧ SameRules net m ∧
    m.ruleTokens.size = net.ruleStarts.size) ?_
    fun m ⟨hm, same, _⟩ => ⟨hm, by rw [same.starts, same.stops, hsize]⟩
  refine safe_foldlM (fun rule hrule m ⟨hm, same, tokens⟩ => ?step) ⟨?draft, ⟨rfl, rfl⟩, ?tokens⟩
  case draft => exact ⟨⟨h.number, h.within, h.start, h.stop, h.mode, h.decision⟩, h.bare, h.stops⟩
  case tokens => simp [ruleCount]
  case step =>
    have hrule : rule < net.ruleStarts.size := List.mem_range.1 hrule
    have added := safe_addBypass hm (same.starts ▸ hrule) (by rw [same.stops, hsize]; exact hrule)
      (tokens ▸ hrule)
    exact (added.and fun _ hm' => addBypass_keeps hm hm').imp fun _ ⟨htokens, hm', same'⟩ =>
      ⟨hm', same.trans same', htokens ▸ tokens⟩

theorem safe_require {st : State} {b : Bool} {condition : Condition} :
    Safe (require st b condition) fun _ => True := by
  cases b
  · exact safe_defect
  · exact safe_pure trivial

theorem returns_kindAhead {st : State} (h : ∀ e ∈ st.edges, e.target < net.states.size) {i : Nat} :
    Returns (net.kindAhead st i) fun _ => True := by
  unfold kindAhead
  split
  · exact returns_pure trivial
  · rename_i e he
    exact (returns_state (h e (List.mem_of_getElem? he))).bind fun _ _ => returns_pure trivial

theorem safe_checkKind {st : State} (h : ∀ e ∈ st.edges, e.target < net.states.size) :
    Safe (net.checkKind st) fun _ => True := by
  have ahead := fun i => (returns_kindAhead h (i := i)).safe
  unfold checkKind
  split
  · rename_i flavor stop _ _
    cases flavor with
    | plus => exact safe_require.bind fun _ _ => safe_require
    | _ => exact safe_require
  · refine safe_require.bind fun _ _ => safe_require.bind fun _ _ => ?_
    refine (ahead 0).bind fun _ _ => (ahead 1).bind fun _ _ => ?_
    refine safe_ite (fun _ => safe_require.bind fun _ _ => safe_require) fun _ => ?_
    exact safe_ite (fun _ => safe_require.bind fun _ _ => safe_require) fun _ => safe_require
  · exact safe_require.bind fun _ _ => (ahead 0).bind fun _ _ => safe_require
  · exact safe_require
  · exact safe_require
  · exact safe_require
  · exact safe_pure trivial

theorem safe_checks (h : net.InRange) : Safe net.check fun _ => True := by
  refine safe_forM fun st hst => safe_ite (fun _ => safe_pure trivial) fun _ => ?_
  obtain ⟨s, hs, rfl⟩ := Array.mem_iff_getElem.1 (Array.mem_toList_iff.1 hst)
  have hedges : ∀ e ∈ net.states[s].edges, e.target < net.states.size := fun e he =>
    ((h.within (Array.getElem?_eq_getElem hs)).edges e he).1
  refine safe_require.bind fun _ _ => (safe_checkKind hedges).bind fun _ _ => ?_
  exact safe_ite (fun _ => safe_require) fun _ => safe_require

theorem returns_endsSilently (h : net.InRange) {edges : State → List Edge} {follow : Nat}
    (hedges : ∀ st, edges st = st.edges ∨ edges st = st.followed) (hf : follow < net.states.size) :
    Returns (net.endsSilently edges follow) fun _ => True := by
  have hwidth (st : State) : (edges st).length ≤ st.edges.length + st.followed.length := by
    rcases hedges st with heq | heq <;> rw [heq]
    · exact Nat.le_add_right _ _
    · exact Nat.le_add_left _ _
  have hwithin {s : Nat} {st : State} (hst : net.states[s]? = some st) :
      ∀ e ∈ edges st, e.target < net.states.size := by
    intro e he
    rcases hedges st with heq | heq
    · exact ((h.within hst).edges e (heq ▸ he)).1
    · exact h.target_lt hst (heq ▸ he)
  refine returns_search hwidth hf fun {s st} hst => ?_
  refine (returns_state (lt_size hst)).bind fun _ hst' => ?_
  obtain rfl := Option.some.inj (hst.symm.trans hst')
  split
  · exact returns_pure fun _ ht => Option.some.inj ht ▸ ⟨Nat.zero_le _, nofun⟩
  · split
    · refine returns_pure fun _ ht => ?_
      obtain rfl := Option.some.inj ht
      exact ⟨by simp, by simpa using hwithin hst⟩
    · exact returns_pure nofun

theorem returns_judgeTail (h : net.InRange) {e : Edge} (he : e.Within net.states.size) :
    Returns (net.judgeTail e) (Edge.Within net.states.size) := by
  cases e with
  | call c =>
    have hf : c.follow < net.states.size := he.2 c rfl
    refine (returns_endsSilently h (fun _ => .inl rfl) hf).bind fun tail _ => ?_
    refine (returns_endsSilently h (fun _ => .inr rfl) hf).bind fun optimizedTail _ => ?_
    refine returns_pure ⟨he.1, fun c' hc' => ?_⟩
    obtain rfl := Option.some.inj hc'
    exact hf
  | _ => exact returns_pure he

theorem returns_withTailCalls (h : net.InRange) : Returns net.withTailCalls InRange := by
  have judged {es : List Edge} (hes : ∀ e ∈ es, e.Within net.states.size) :=
    returns_mapM_all fun e he => returns_judgeTail h (hes e he)
  have hstates : Returns (net.states.toList.mapM fun st => do
      let edges ← st.edges.mapM net.judgeTail
      let optimized ← st.optimized.mapM fun es => es.mapM net.judgeTail
      return { st with edges, optimized })
      (List.Forall₂ (fun st st' => st'.number = st.number ∧ st'.Within net.states.size)
        net.states.toList) := by
    refine returns_mapM fun st hst => ?_
    obtain ⟨s, hs, rfl⟩ := Array.mem_iff_getElem.1 (Array.mem_toList_iff.1 hst)
    have hw := h.within (Array.getElem?_eq_getElem hs)
    generalize net.states[s] = st at hw
    refine (judged hw.edges).bind fun edges hedges => ?_
    cases ho : st.optimized with
    | none => exact returns_pure ⟨rfl, hedges, hedges⟩
    | some es =>
      have hes : ∀ e ∈ es, e.Within net.states.size := by
        simpa [State.followed, ho] using hw.followed
      obtain ⟨es', hes', hall⟩ := judged hes
      refine Returns.bind (P := fun o => o = some es') ⟨some es', ?_, rfl⟩ fun o ho => ?_
      · show some <$> es.mapM net.judgeTail = _
        rw [hes']
        rfl
      · subst ho
        exact returns_pure ⟨rfl, hedges, hall⟩
  obtain ⟨states, heq, hall⟩ := hstates
  refine Returns.bind (P := (· = states.toArray)) ⟨states.toArray, ?_, rfl⟩ fun a ha => ?_
  · rw [Array.mapM_eq_mapM_toList, heq]
    rfl
  · subst ha
    have hlen : states.length = net.states.size := hall.length_eq.symm.trans Array.length_toList
    refine returns_pure (h.of_states (by simp [hlen]) fun {s st'} hs => ?_)
    rw [List.getElem?_toArray] at hs
    obtain ⟨hlt, rfl⟩ := List.getElem?_eq_some_iff.1 hs
    obtain ⟨hnumber, hwithin⟩ := hall.get (by simpa [hlen] using hlt) hlt
    rw [List.size_toArray, hlen]
    exact ⟨hnumber.trans (h.number (Array.getElem?_eq_getElem (hlen ▸ hlt))), hwithin⟩

theorem safe_prepare {options : LoadOptions} (h : net.Draft)
    (hsize : net.ruleStops.size = net.ruleStarts.size) : Safe (net.prepare options) InRange := by
  have tails {m : Network} (hm : m.InRange) :
      Safe (liftM m.withTailCalls : Except LoadError Network) InRange :=
    (returns_withTailCalls hm).safe
  have checked {m : Network} {x : Except LoadError Network} (hm : m.InRange) (hx : Safe x InRange) :
      Safe (if options.verify = true then m.check >>= fun _ => x else x) InRange :=
    safe_ite (fun _ => (safe_checks hm).bind fun _ _ => hx) fun _ => hx
  have rest {m : Network} (hm : m.InRange) : Safe (do
      if options.verify then m.check
      if options.optimize then
        let r ← m.optimize
        if options.verify then r.2.check
        r.2.withTailCalls
      else m.withTailCalls) InRange := by
    refine checked hm (safe_ite (fun _ => ?_) fun _ => tails hm)
    exact (optimize_returns hm).safe.bind fun r hr => checked hr.1.toInRange (tails hr.1.toInRange)
  refine safe_ite (fun _ => ?_) fun _ => rest (h.toWired.inRange hsize.ge)
  exact (safe_withBypasses h hsize).bind fun m hm => rest (hm.1.toWired.inRange hm.2.ge)

end Network

theorem safe_loadWords (words : List Wire.Word) (options : LoadOptions) :
    Safe (loadWords words options) Network.InRange :=
  Wire.safe_decode.bind fun _ h => Network.safe_prepare h.1 h.2

/-- A load gives a network whose references are in range, or says what is wrong with the words. -/
theorem loadWords_answers (words : List Wire.Word) (options : LoadOptions) :
    (∃ net, loadWords words options = .ok net ∧ net.InRange) ∨
    (∃ e, loadWords words options = .error (.format e)) ∨
    ∃ d, loadWords words options = .error (.defect d) := by
  have hload := safe_loadWords words options
  cases hr : loadWords words options with
  | ok net => exact .inl ⟨net, rfl, hload.keeps net hr⟩
  | error e =>
    cases e with
    | format e => exact .inr (.inl ⟨e, rfl⟩)
    | defect d => exact .inr (.inr ⟨d, rfl⟩)
    | fault f => exact absurd hr (hload.noFault f)

end GrammarWalk
