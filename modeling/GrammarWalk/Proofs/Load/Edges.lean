import GrammarWalk.Proofs.Load.Conservative
import GrammarWalk.Proofs.Load.Safe
import GrammarWalk.Proofs.Load.Shown
import GrammarWalk.Proofs.Network.ReturnEdges

/-! The raw edges of a network are those that its stream names, with epsilon edges and actions made
of them, and those of the bypasses. So what holds of all of these holds of every raw edge. Each call
has its return edge, which stays in place while the rest of the stream is read. -/

namespace GrammarWalk

open Network Wire Reader

variable {P : Edge → Prop} {net net' : Network} {c c' : Cursor} {s : Nat}

namespace Network

/-- All raw edges of the network have the property. -/
structure Every (net : Network) (P : Edge → Prop) : Prop where
  edges : ∀ {s : Nat} {st : State}, net.states[s]? = some st → ∀ e ∈ st.edges, P e

namespace Every

theorem modify (h : net.Every P) {f : State → State}
    (hf : ∀ st, (∀ e ∈ st.edges, P e) → ∀ e ∈ (f st).edges, P e) : (net.modify s f).Every P := by
  refine ⟨fun {t st} ht => ?_⟩
  rw [getElem?_modify] at ht
  split at ht
  · obtain ⟨old, hold, rfl⟩ := Option.map_eq_some_iff.1 ht
    exact hf old (h.edges hold)
  · exact h.edges ht

theorem addEdge {e : Edge} (h : net.Every P) (he : P e) : (net.addEdge s e).Every P :=
  h.modify fun _ hst => List.forall_mem_append.2 ⟨hst, List.forall_mem_singleton.2 he⟩

theorem modifyKind (h : net.Every P) {f : State → State} (hf : ∀ st, (f st).edges = st.edges) :
    (net.modify s f).Every P :=
  h.modify fun st hst => by rwa [hf st]

theorem linkBlocks (h : net.Every P) (hn : net.linkBlocks = .ok net') : net'.Every P := by
  refine foldlM_keeps (P := fun m => Every m P) (fun s _ m m' hm hs => ?_) h hn
  obtain ⟨st, -, ⟨-, rfl⟩ | ⟨_, stop, _, e, -, -, -, rfl⟩⟩ := linkBlock_cases hs
  · exact hm
  · exact hm.modifyKind fun _ => rfl

theorem linkLoops (h : net.Every P) (hn : net.linkLoops = .ok net') : net'.Every P := by
  have link {f : State → State} (hf : ChangesLink f) {m : Network} {t : Nat} (hm : m.Every P) :
      (m.modify t f).Every P := hm.modifyKind fun st => by rw [hf.eq st]
  refine foldlM_keeps (P := fun m => Every m P) (fun s _ m m' hm hs => ?_) h hn
  exact linkLoop_induction (P := fun m => Every m P) hs hm
    (fun _ _ _ _ _ _ _ hm => link (changesLink_closePlus s) hm)
    fun _ _ _ _ _ _ hm => link (changesLink_closeStar s) hm

theorem markPrecedences (h : net.Every P) (hn : net.markPrecedences = .ok net') : net'.Every P := by
  refine foldlM_keeps (P := fun m => Every m P) (fun s _ m m' hm hs => ?_) h hn
  obtain rfl | ⟨_, _, _, _, -, -, -, rfl⟩ := markPrecedence_cases hs
  · exact hm
  · exact hm.modifyKind fun _ => rfl

theorem defineDecision (h : net.Every P) {d : Nat} (hn : net.defineDecision s = some (d, net')) :
    net'.Every P := by
  obtain ⟨st, dec, -, -, -, -, rfl⟩ := defineDecision_eq_some hn
  have numbered := h.modifyKind (s := s) (f := fun st => { st with
    kind := st.kind.mapDecision fun d => { d with number := some net.decisions.size } }) fun _ =>
      rfl
  exact ⟨numbered.edges⟩

end Every

end Network

namespace Wire

/-- The edges that a stream with the sets can name have the property, and the epsilon edges and
actions made of them. -/
structure Named (P : Edge → Prop) (sets : List SymbolSet) : Prop where
  made : ∀ {net : Network} {kind : EdgeKind} {target a b i : Nat} {c c' : Cursor} {e : Edge},
    makeEdge net sets kind target a b i c = .ok (e, c') → P e
  epsilon : ∀ t r, P (.epsilon t r)
  action : ∀ t r i d, P (.action t r i d)

theorem readEdge_every {sets : List SymbolSet} (hP : Named P sets) (h : net.Every P)
    (hn : readEdge sets net c = .ok (net', c')) : net'.Every P := by
  obtain ⟨s, e, -, rfl, _, _, _, _, _, _, _, he⟩ := readEdge_eq_ok hn
  exact h.addEdge (hP.made he)

theorem readStates_every (hn : readStates net c = .ok (net', c')) : net'.Every P := by
  obtain ⟨rows, hnet, -⟩ : ∃ rows : List Row, net' = _ ∧ _ := (safeRead_rows c).keeps _ hn
  refine ⟨fun {s st} hs => ?_⟩
  rw [hnet] at hs
  obtain ⟨r, -, rfl⟩ := Option.map_eq_some_iff.1 (Array.getElem?_mapIdx.symm.trans hs)
  exact nofun

theorem readNonGreedy_every (h : net.Every P) (hn : readNonGreedy net c = .ok (net', c')) :
    net'.Every P := by
  obtain ⟨s, rfl⟩ := readNonGreedy_eq_ok hn
  exact h.modifyKind fun _ => rfl

theorem readPrecedenceRule_every (h : net.Every P)
    (hn : readPrecedenceRule net c = .ok (net', c')) : net'.Every P := by
  obtain ⟨s, st, stop, p, leftFactored, -, -, rfl⟩ := readPrecedenceRule_eq_ok hn
  exact h.modifyKind fun _ => rfl

theorem readRule_every {version : Version} (h : net.Every P)
    (hn : readRule version net c = .ok (net', c')) : net'.Every P := by
  obtain ⟨s, tokens, -, rfl⟩ := readRule_eq_ok hn
  exact ⟨h.edges⟩

theorem linkStops_every (hd : net.Draft) (hs : net.ruleStops = #[]) (h : net.Every P)
    (hn : linkStops net = .ok net') : net'.Every P := by
  refine (linkStops_induction (P := fun m => Every m P) hd hs hn h fun m start stop _ hm => ?_).2
  have pushed : Every { m with ruleStops := m.ruleStops.push stop } P := ⟨hm.edges⟩
  exact pushed.modifyKind fun st => by split <;> rfl

theorem readMode_every (h : net.Every P) (hn : readMode net c = .ok (net', c')) : net'.Every P := by
  obtain ⟨s, -, rfl⟩ := readMode_eq_ok hn
  exact ⟨h.edges⟩

theorem readDecision_every (h : net.Every P) (hn : readDecision net c = .ok (net', c')) :
    net'.Every P := by
  obtain ⟨s, d, hn⟩ := readDecision_eq_ok hn
  exact h.defineDecision hn

theorem readCommands_every {version : Version} (haction : ∀ t r i d, P (.action t r i d))
    (h : net.Every P) (hn : readCommands version net c = .ok (net', c')) : net'.Every P := by
  obtain ⟨commands, rfl⟩ | rfl := readCommands_eq_ok hn
  · exact ⟨h.edges⟩
  · refine withCommands_induction (P := fun m => Every m P) h (fun m i st hst hm => ?_)
      fun _ _ hm => ⟨hm.edges⟩
    refine hm.modify fun _ _ e he => ?_
    obtain he | ⟨_, _, _, _, -, _, rfl⟩ := mem_numberActions he
    · exact h.edges hst e he
    · exact haction _ _ _ _

/-- What holds of all edges that a stream can name holds of all edges of the network that is read
from it. The sets that it names do not hold the mark for the end of a rule. -/
theorem decode_every {words : List Word} (hn : decode words = .ok net)
    (hP : ∀ sets, (∀ set ∈ sets, Symbol.ruleEnd ∉ set) → Named P sets) : net.Every P := by
  obtain ⟨s⟩ := decode_sections hn
  have d := s.drafts
  have hP : Named P s.sets := by
    obtain ⟨c, c', h⟩ := s.readSets
    exact hP _ ((safeRead_readSets c).keeps _ h)
  have states : s.states.Every P := by
    obtain ⟨_, _, _, _, h⟩ := s.readStates
    exact readStates_every h
  have nonGreedy := s.readNonGreedy.keeps (fun _ _ _ _ => readNonGreedy_every) states
  have precedence := s.readPrecedence.keeps (fun _ _ _ _ => readPrecedenceRule_every) nonGreedy
  have rules := s.readRules.keeps (fun _ _ _ _ => readRule_every) precedence
  have linked := linkStops_every d.rules.1 d.rules.2 rules s.linkStops
  have modes := s.readModes.keeps (fun _ _ _ _ => readMode_every) linked
  have edges := s.readEdges.keeps (fun _ _ _ _ => readEdge_every hP) modes
  have returns : s.returns.Every P := by
    obtain ⟨_, h⟩ := s.addReturns
    exact addReturns_induction (P := fun m => Network.Every m P) h edges fun _ _ _ _ hm =>
      hm.addEdge (hP.epsilon _ _)
  have decisions := s.readDecisions.keeps (fun _ _ _ _ => readDecision_every)
    ((returns.linkBlocks s.linkBlocks).linkLoops s.linkLoops)
  have commands : s.commands.Every P := by
    obtain ⟨_, _, h⟩ := s.readCommands
    exact readCommands_every hP.action decisions h
  exact commands.markPrecedences s.markPrecedences

end Wire

namespace Network

/-- The edges that a bypass adds are plain, but for the one that takes the token of the rule. -/
theorem Bypassed.every {rule start partEnd : Nat} {token : Int}
    (hby : Bypassed rule start partEnd token net net') (hd : net.Draft)
    (hretarget : ∀ e t, P e → P (e.retarget t)) (hplain : ∀ t, P (.plain t))
    (htoken : ∀ t, P (.atom t token)) (h : net.Every P) : net'.Every P := by
  have led {es es' : List Edge} (hes : List.Forall₂ (Led partEnd (net.states.size + 1)) es es')
      (h : ∀ e ∈ es, P e) : ∀ e ∈ es', P e := fun e' he' => by
    obtain ⟨e, he, rfl | ⟨-, rfl⟩⟩ := exists_of_forall₂_right hes he'
    · exact h _ he
    · exact hretarget _ _ (h _ he)
  have plain {t : Nat} : ∀ e ∈ [Edge.plain t], P e := List.forall_mem_singleton.2 (hplain t)
  obtain ⟨first, hfirst, -⟩ := hd.start hby.ruleStart
  refine ⟨fun {s st'} hs => ?_⟩
  obtain hlt | rfl | rfl | rfl := hby.place hs
  · have hold := Array.getElem?_eq_getElem hlt
    by_cases hne : s = start
    · subst hne
      obtain rfl := Option.some.inj ((hby.entered hold).symm.trans hs)
      exact plain
    · obtain ⟨edges, hs', hled⟩ := hby.old hold hne
      obtain rfl := Option.some.inj (hs'.symm.trans hs)
      exact led hled (h.edges hold)
  · obtain ⟨body, hled, hblock⟩ := hby.block hfirst
    obtain rfl := Option.some.inj (hblock.symm.trans hs)
    exact List.forall_mem_append.2 ⟨led hled (h.edges hfirst), plain⟩
  · obtain rfl := Option.some.inj (hby.stop.symm.trans hs)
    exact plain
  · obtain rfl := Option.some.inj (hby.taking.symm.trans hs)
    exact List.forall_mem_singleton.2 (htoken _)

theorem Every.withBypasses (h : net.Every P) (hd : net.Draft)
    (hretarget : ∀ e t, P e → P (e.retarget t)) (hplain : ∀ t, P (.plain t))
    (htoken : ∀ t r, P (.atom t (net.bypassToken r))) (hn : net.withBypasses = .ok net') :
    net'.Every P := by
  refine (foldlM_range_keeps (P := fun k m => Extended net k m ∧ m.Every P) (fun k hk m m' hm hs =>
    ?_) ⟨extended_tokens hd, ⟨h.edges⟩⟩ hn).2
  obtain ⟨hext, hm⟩ := hm
  refine ⟨hext.addBypass hd hk hs, ?_⟩
  obtain ⟨start, partEnd, token, hby⟩ := bypassed_of_addBypass hext.draft hs
  obtain rfl : token = net.bypassToken k :=
    Option.some.inj (hby.ruleToken.symm.trans (hext.tokens k hk))
  exact hby.every hext.draft hretarget hplain (fun t => htoken t k) hm

end Network

section returns

/-- The mark of a left-factored rule, which no stream sets. -/
def StateKind.leftFactored? : StateKind → Option Unit
  | .ruleStart _ _ leftFactored => if leftFactored then some () else none
  | _ => none

instance : StateKind.Steady StateKind.leftFactored? where
  basic := rfl
  blockStart _ _ _ := rfl
  blockEnd _ := rfl
  starLoopEntry _ _ _ _ := rfl
  mapDecision k _ := by cases k <;> rfl

/-- The rule of a state and its edges that are no actions. -/
def State.steps (st : State) : Option Nat × List Edge :=
  (st.rule, st.edges.filter (·.kind != .action))

theorem State.mem_steps {st : State} {e : Edge} (h : e.kind ≠ .action) :
    e ∈ st.steps.2 ↔ e ∈ st.edges := by
  simp [steps, h]

namespace Network

/-- The states have the same rules, and the same edges but for actions. -/
def SameSteps (net net' : Network) : Prop :=
  ∀ x : Nat, net'.states[x]?.map State.steps = net.states[x]?.map State.steps

namespace SameSteps

theorem refl (net : Network) : SameSteps net net := fun _ => rfl

theorem trans {a b c : Network} (h : SameSteps a b) (h' : SameSteps b c) : SameSteps a c :=
  fun x => (h' x).trans (h x)

theorem symm (h : SameSteps net net') : SameSteps net' net := fun x => (h x).symm

theorem exists_state {st : State} (h : SameSteps net net') (hst : net.states[s]? = some st) :
    ∃ st', net'.states[s]? = some st' ∧ st'.rule = st.rule ∧
      ∀ e : Edge, e.kind ≠ .action → (e ∈ st'.edges ↔ e ∈ st.edges) := by
  obtain ⟨st', hst', heq⟩ :=
    Option.map_eq_some_iff.1 ((h s).trans (congrArg (Option.map State.steps) hst))
  refine ⟨st', hst', congrArg Prod.fst heq, fun e he => ?_⟩
  rw [← State.mem_steps he, ← State.mem_steps he, heq]

theorem calledRule (h : SameSteps net net') (call : Call) :
    net'.calledRule call = net.calledRule call := by
  have rule (net : Network) : (net.states[call.start]?.map State.steps).bind Prod.fst =
      net.states[call.start]?.bind State.rule := by
    cases net.states[call.start]? <;> rfl
  rw [Network.calledRule, Network.calledRule, ← rule, ← rule, h]

theorem modify {f : State → State} (hf : ∀ st, net.states[s]? = some st → (f st).steps = st.steps) :
    SameSteps net (net.modify s f) := by
  intro x
  rw [getElem?_modify]
  split
  · subst x
    cases hst : net.states[s]? with
    | none => rfl
    | some st => exact congrArg some (hf st hst)
  · rfl

theorem linkBlocks (hn : net.linkBlocks = .ok net') : SameSteps net net' := by
  refine foldlM_keeps (P := SameSteps net) (fun s _ m m' hm hs => ?_) (.refl net) hn
  obtain ⟨st, -, ⟨-, rfl⟩ | ⟨_, stop, _, e, -, -, -, rfl⟩⟩ := linkBlock_cases hs
  · exact hm
  · exact hm.trans (.modify fun _ _ => rfl)

theorem linkLoops (hn : net.linkLoops = .ok net') : SameSteps net net' := by
  have link {f : State → State} (hf : ChangesLink f) {m : Network} {t : Nat}
    (hm : SameSteps net m) :
      SameSteps net (m.modify t f) := hm.trans (.modify fun st _ => by rw [hf.eq st]; rfl)
  refine foldlM_keeps (P := SameSteps net) (fun s _ m m' hm hs => ?_) (.refl net) hn
  exact linkLoop_induction (P := SameSteps net) hs hm
    (fun _ _ _ _ _ _ _ hm => link (changesLink_closePlus s) hm)
    fun _ _ _ _ _ _ hm => link (changesLink_closeStar s) hm

theorem markPrecedences (hn : net.markPrecedences = .ok net') : SameSteps net net' := by
  refine foldlM_keeps (P := SameSteps net) (fun s _ m m' hm hs => ?_) (.refl net) hn
  obtain rfl | ⟨_, _, _, _, -, -, -, rfl⟩ := markPrecedence_cases hs
  · exact hm
  · exact hm.trans (.modify fun _ _ => rfl)

theorem defineDecision {d : Nat} (hn : net.defineDecision s = some (d, net')) :
    SameSteps net net' := by
  obtain ⟨st, dec, -, -, -, -, rfl⟩ := defineDecision_eq_some hn
  exact SameSteps.modify (f := fun st => { st with
    kind := st.kind.mapDecision fun d => { d with number := some net.decisions.size } })
      fun _ _ => rfl

end SameSteps

end Network

namespace Wire

theorem filter_numberActions {first : Nat} {es : List Edge} :
    (numberActions first es).1.filter (·.kind != .action) = es.filter (·.kind != .action) := by
  induction es generalizing first with
  | nil => rfl
  | cons e es ih =>
    cases e <;> simp only [numberActions, List.filter_cons, ih]
    all_goals rfl

theorem withCommands_sameSteps (h : net.Draft) : SameSteps net (withCommands net) := by
  refine withCommands_induction (P := SameSteps net) (.refl net) (fun m {i st} hst hm => ?_)
    fun _ _ hm => hm
  refine hm.trans (.modify fun old hold => ?_)
  have heq : old.steps = st.steps := by
    have := hm i
    rw [hst, ← h.number hst, hold] at this
    exact Option.some.inj this
  refine Prod.ext rfl ?_
  exact filter_numberActions.trans (congrArg Prod.snd heq).symm

/-- Reading goes on with the states as they are once the return edges are there, but for actions. -/
theorem Sections.sameSteps (s : Sections net) : SameSteps s.returns net := by
  have loops := (SameSteps.linkBlocks s.linkBlocks).trans (.linkLoops s.linkLoops)
  have decisions : SameSteps s.returns s.decisions := s.readDecisions.keeps (fun _ _ _ _ hm hn => by
    obtain ⟨_, _, hn⟩ := readDecision_eq_ok hn
    exact hm.trans (.defineDecision hn)) loops
  have commands : SameSteps s.returns s.commands := by
    obtain ⟨_, _, h⟩ := s.readCommands
    obtain ⟨commands, hcommands⟩ | hcommands := readCommands_eq_ok h
    · rw [hcommands]
      exact decisions
    · rw [hcommands]
      exact decisions.trans (withCommands_sameSteps s.drafts.decisions.1)
  exact commands.trans (.markPrecedences s.markPrecedences)

theorem Sections.isLeftFactored_edges (s : Sections net) (r : Nat) :
    s.edges.isLeftFactored r = false := by
  have states (x : Nat) : s.states.shownAt StateKind.leftFactored? x = none := by
    obtain ⟨_, _, _, _, hn⟩ := s.readStates
    simp only [Wire.readStates, bind_reads, pure_reads] at hn
    obtain ⟨rows, -, -, -, -, -, -, -, -, heq, -⟩ := hn
    rw [Network.shownAt, ← heq, Option.bind_eq_none_iff]
    intro st hst
    obtain ⟨⟨type, _, _⟩, -, rfl⟩ := Option.map_eq_some_iff.1 (Array.getElem?_mapIdx.symm.trans hst)
    cases type <;> rfl
  rw [isLeftFactored, Option.any_eq_false]
  intro st hst
  obtain ⟨x, -, hst⟩ := Option.bind_eq_some_iff.1 hst
  have linked := (s.shown_linked (fun _ _ _ _ _ => rfl) x).trans (states x)
  have hshown := (s.shown_edges.shown x).trans linked
  rw [shownAt_of_getElem? hst, Option.map_eq_none_iff] at hshown
  revert hshown
  cases st.kind with
  | ruleStart stop p leftFactored => cases leftFactored <;> simp [StateKind.leftFactored?]
  | _ => simp

end Wire

/-- From the stop of the rule that a call enters, an edge leads to where the call goes on. -/
def Network.CallsReturn (net : Network) : Prop :=
  ∀ {s stop : Nat} {st : State} {c : Call}, net.states[s]? = some st → .call c ∈ st.edges →
    net.ruleStops[net.calledRule c]? = some stop →
    ∃ z mark, net.states[stop]? = some z ∧ .epsilon c.follow mark ∈ z.edges

theorem Network.Returned.calledRule {rs : List Return} (h : Returned net rs net') (c : Call) :
    net'.calledRule c = net.calledRule c := by
  rw [Network.calledRule, Network.calledRule, h.states]
  cases net.states[c.start]? <;> rfl

/-- No rule of a decoded network is left-factored, so that each call has its return edge. -/
theorem Wire.decode_callsReturn {words : List Word} (hn : decode words = .ok net) :
    net.CallsReturn := by
  obtain ⟨s⟩ := decode_sections hn
  have d := s.drafts
  have hstops : net.ruleStops = s.edges.ruleStops := d.last.2.stops.trans d.edges.2.stops.symm
  obtain ⟨n, hreturns⟩ := s.addReturns
  have exact :=
    returns_addReturns_exact s.edges.returns fun _ _ ht => lt_size (d.edges.1.stop ht).choose_spec.1
  obtain ⟨-, hreturned⟩ := exact.of_eq_ok hreturns
  intro x stop st c hst hc hstop
  obtain ⟨st', hst', -, hmem⟩ := s.sameSteps.symm.exists_state hst
  rw [hreturned.states] at hst'
  obtain ⟨caller, hcaller, rfl⟩ := Option.map_eq_some_iff.1 hst'
  -- the return edges are no calls
  have hc : .call c ∈ caller.edges := by
    obtain hc | hc := List.mem_append.1 ((hmem (.call c) nofun).2 hc)
    · exact hc
    · obtain ⟨r, -, hr⟩ := List.mem_map.1 hc
      cases hr
  obtain ⟨i, hi⟩ := List.mem_iff_getElem?.1 hc
  let r : Return := {
    rule := s.edges.calledRule c
    follow := c.follow
    mark := if s.edges.isPrecedenceRule (s.edges.calledRule c) = true ∧ c.precedence = 0
      then some (s.edges.calledRule c) else none }
  have hcalled : net.calledRule c = r.rule :=
    (s.sameSteps.calledRule c).trans (hreturned.calledRule c)
  rw [hstops, hcalled] at hstop
  have hr : r ∈ s.edges.returns :=
    mem_returns_iff.2 ⟨(x, i), caller, c, hcaller, hi, rfl, rfl, rfl, fun hleft => by
    rw [s.isLeftFactored_edges] at hleft
    cases hleft⟩
  have hadded : r.edge ∈ s.edges.edgesAt (s.edges.returns.filter s.edges.hasStop) stop := by
    have hhas : s.edges.hasStop r = true := decide_eq_true (Array.getElem?_eq_some_iff.1 hstop).1
    exact List.mem_map_of_mem
      (List.mem_filter.2 ⟨List.mem_filter.2 ⟨hr, hhas⟩, decide_eq_true hstop⟩)
  obtain ⟨z, hz, -⟩ := d.edges.1.stop hstop
  obtain ⟨z', hz', -, hmem⟩ :=
    s.sameSteps.exists_state ((hreturned.states stop).trans (congrArg (Option.map _) hz))
  exact ⟨z', r.mark, hz', (hmem r.edge nofun).2 (List.mem_append_right _ hadded)⟩

end returns

end GrammarWalk
