import GrammarWalk.Proofs.Network.Draft
import GrammarWalk.Wire.Decode

/-! The network of a word stream is a draft in which every rule has its start and its stop. The
reader checks every state number when it meets it; each section keeps what those before it set
up. -/

namespace GrammarWalk

open Wire Reader

theorem Network.Draft.pushStart {net : Network} (h : net.Draft) {s : Nat} {tokens : Array Int}
    (hs : ∃ st : State, net.states[s]? = some st ∧ st.isRuleStart = true) :
    Network.Draft { net with ruleStarts := net.ruleStarts.push s, ruleTokens := tokens } where
  number := h.number
  within := h.within
  stop := h.stop
  mode := h.mode
  decision := h.decision
  bare := h.bare
  stops := by
    have := h.stops
    simp only [Array.size_push]
    omega
  start {r t} hr := by
    change (net.ruleStarts.push s)[r]? = some t at hr
    rw [Array.getElem?_push] at hr
    split at hr
    · obtain rfl := Option.some.inj hr
      exact hs
    · exact h.start hr

theorem Network.Draft.pushStop {net : Network} (h : net.Draft) {s : Nat}
    (hlt : net.ruleStops.size < net.ruleStarts.size)
    (hs : ∃ st : State, net.states[s]? = some st ∧ st.isRuleStop = true ∧
      st.rule = some net.ruleStops.size) :
    Network.Draft { net with ruleStops := net.ruleStops.push s } where
  number := h.number
  within := h.within
  start := h.start
  mode := h.mode
  decision := h.decision
  bare := h.bare
  stops := by
    simp only [Array.size_push]
    exact hlt
  stop {r t} hr := by
    change (net.ruleStops.push s)[r]? = some t at hr
    rw [Array.getElem?_push] at hr
    split at hr
    · rename_i hsize
      obtain rfl := Option.some.inj hr
      exact hsize ▸ hs
    · exact h.stop hr

theorem Network.Draft.pushMode {net : Network} (h : net.Draft) {s : Nat}
    (hs : ∃ st : State, net.states[s]? = some st ∧ st.kind.isTokensStart = true) :
    Network.Draft { net with modes := net.modes.push s } where
  number := h.number
  within := h.within
  start := h.start
  stop := h.stop
  decision := h.decision
  bare := h.bare
  stops := h.stops
  mode {r t} hr := by
    change (net.modes.push s)[r]? = some t at hr
    rw [Array.getElem?_push] at hr
    split at hr
    · obtain rfl := Option.some.inj hr
      exact hs
    · exact h.mode hr

namespace Wire

variable {net net' : Network} {c c' : Cursor}

theorem refer_reads {what : Reference} {s : Nat} {u : Unit} :
    refer net what s c = .ok (u, c') ↔ s < net.states.size ∧ c = c' := by
  unfold refer
  split
  · rw [pure_reads]
    exact ⟨fun h => ⟨‹_›, h.2⟩, fun h => ⟨rfl, h.2⟩⟩
  · rw [reject_reads]
    exact ⟨False.elim, fun h => absurd h.1 ‹_›⟩

theorem guard_reads {α : Type} {b : Bool} {d : Defect} {x : Reader α} {a : α} :
    (if (!b) = true then reject d >>= fun (_ : PUnit) => x else x) c = .ok (a, c') ↔
      b = true ∧ x c = .ok (a, c') := by
  cases b
  · simp only [Bool.not_false, if_true, bind_reads, reject_reads]
    simp
  · simp

theorem readStates_keeps (h0 : net.ruleStarts = #[] ∧ net.ruleStops = #[] ∧ net.modes = #[] ∧
    net.decisions = #[]) (hn : readStates net c = .ok (net', c')) :
    net'.Draft ∧ net'.ruleStops = #[] := by
  simp only [readStates, bind_reads, pure_reads] at hn
  obtain ⟨rows, d, -, -, -, -, -, -, -, rfl, -⟩ := hn
  obtain ⟨h1, h2, h3, h4⟩ := h0
  have entry : ∀ {s : Nat} {st : State}, (rows.toArray.mapIdx fun number r =>
      ({ number, rule := r.rule, kind := r.kind } : State))[s]? = some st →
      st.number = s ∧ st.edges = [] ∧ st.optimized = none := by
    intro s st hs
    rw [Array.getElem?_mapIdx, Option.map_eq_some_iff] at hs
    obtain ⟨r, -, rfl⟩ := hs
    exact ⟨rfl, rfl, rfl⟩
  refine ⟨⟨⟨fun hs => (entry hs).1, fun hs => ?_, ?_, ?_, ?_, ?_⟩, fun hs => (entry hs).2.2, ?_⟩,
    h2⟩
  · obtain ⟨-, he, ho⟩ := entry hs
    exact ⟨by simp [he], by simp [State.followed, ho, he]⟩
  all_goals simp [h1, h2, h3, h4]

/-- One entry of the list of decisions that prefer to leave their loop sets that preference. -/
theorem readNonGreedy_eq_ok (hn : readNonGreedy net c = .ok (net', c')) : ∃ s,
    net' = net.modify s fun st =>
      { st with kind := st.kind.mapDecision fun d => { d with nonGreedy := true } } := by
  simp only [readNonGreedy, bind_reads] at hn
  obtain ⟨s, d, -, -, e, -, st, e', -, hn⟩ := hn
  cases hk : st.kind.decision? with
  | none =>
    rw [hk] at hn
    exact (reject_reads.1 hn).elim
  | some dec =>
    rw [hk] at hn
    exact ⟨s, (pure_reads.1 hn).1.symm⟩

theorem readNonGreedy_keeps (h : net.Draft) (hn : readNonGreedy net c = .ok (net', c')) :
    net'.Draft ∧ net'.ruleStops = net.ruleStops := by
  obtain ⟨s, rfl⟩ := readNonGreedy_eq_ok hn
  exact ⟨h.modify (h.respects_kind fun _ _ => StateKind.type_mapDecision) fun _ => rfl, rfl⟩

theorem readPrecedenceRule_eq_ok (hn : readPrecedenceRule net c = .ok (net', c')) :
    ∃ s st stop p leftFactored, net.states[s]? = some st ∧
      st.kind = .ruleStart stop p leftFactored ∧
      net' = net.modify s fun st => { st with kind := .ruleStart stop true leftFactored } := by
  simp only [readPrecedenceRule, bind_reads, liftM_fault_reads, Network.state_eq_ok] at hn
  obtain ⟨s, d, -, -, e, -, st, e', ⟨hst, -⟩, hn⟩ := hn
  refine ⟨s, st, ?_⟩
  generalize st.kind = k at hn ⊢
  match k, hn with
  | .ruleStart stop p leftFactored, hn =>
    exact ⟨stop, p, leftFactored, hst, rfl, (pure_reads.1 hn).1.symm⟩
  | .invalid, hn | .basic, hn | .ruleStop, hn | .blockStart .., hn | .blockEnd _, hn
  | .loopEnd _, hn | .plusLoopBack _, hn | .starLoopBack, hn | .starLoopEntry .., hn
  | .tokensStart _, hn => exact (reject_reads.1 hn).elim

theorem readPrecedenceRule_keeps (h : net.Draft) (hn : readPrecedenceRule net c = .ok (net', c')) :
    net'.Draft ∧ net'.ruleStops = net.ruleStops := by
  obtain ⟨s, st, stop, p, leftFactored, hst, hk, rfl⟩ := readPrecedenceRule_eq_ok hn
  refine ⟨h.modify (h.respects_kind fun st' hst' => ?_) fun _ => rfl, rfl⟩
  rw [hst] at hst'
  rw [← Option.some.inj hst', hk]
  rfl

theorem readRule_eq_ok {version : Version} (hn : readRule version net c = .ok (net', c')) :
    ∃ s tokens, (∃ st : State, net.states[s]? = some st ∧ st.isRuleStart = true) ∧
      net' = { net with ruleStarts := net.ruleStarts.push s, ruleTokens := tokens } := by
  simp only [readRule, bind_reads, liftM_fault_reads, Network.state_eq_ok] at hn
  obtain ⟨s, d, -, -, e, -, st, e', ⟨hst, rfl⟩, hn⟩ := hn
  rw [guard_reads] at hn
  obtain ⟨hstart, hn⟩ := hn
  have hs : ∃ st : State, net.states[s]? = some st ∧ st.isRuleStart = true := ⟨st, hst, hstart⟩
  rcases net with ⟨_ | _, _⟩
  · simp only [bind_reads] at hn
    obtain ⟨type, d', -, hn⟩ := hn
    split at hn
    · simp only [bind_reads, pure_reads] at hn
      obtain ⟨-, -, -, rfl, -⟩ := hn
      exact ⟨s, _, hs, rfl⟩
    · exact ⟨s, _, hs, (pure_reads.1 hn).1.symm⟩
  · exact ⟨s, _, hs, (pure_reads.1 hn).1.symm⟩

theorem readRule_keeps {version : Version} (h : net.Draft)
    (hn : readRule version net c = .ok (net', c')) :
    net'.Draft ∧ net'.ruleStops = net.ruleStops := by
  obtain ⟨s, tokens, hs, rfl⟩ := readRule_eq_ok hn
  exact ⟨h.pushStart hs, rfl⟩

theorem stopOf_eq_ok {rule stop : Nat} (h : net.Draft) (hs : stopOf net rule = .ok stop) :
    ∃ st : State, net.states[stop]? = some st ∧ st.isRuleStop = true ∧ st.rule = some rule := by
  rw [stopOf] at hs
  split at hs
  · rename_i st hf
    obtain rfl := pure_eq_ok.1 hs
    have hp := List.find?_some hf
    have hmem : st ∈ net.states := by simpa using List.mem_of_find?_eq_some hf
    obtain ⟨i, hi, rfl⟩ := Array.mem_iff_getElem.1 hmem
    have hst := Array.getElem?_eq_getElem hi
    rw [h.number hst]
    rw [Bool.and_eq_true, beq_iff_eq] at hp
    exact ⟨_, hst, hp⟩
  · exact absurd hs (by simp [throw_ne_ok])

/-- Linking the stops of all rules goes from rule to rule: each gets the last of its stops, to which
its start is linked. What that keeps, the whole keeps. -/
theorem linkStops_steps {P : Network → Prop} (h : net.Draft) (hs : net.ruleStops = #[])
    (hn : linkStops net = .ok net') (hP : P net)
    (step : ∀ (m : Network) (start stop : Nat), m.Draft → m.ruleStarts = net.ruleStarts →
      net.ruleStarts[m.ruleStops.size]? = some start → stopOf m m.ruleStops.size = .ok stop → P m →
      P (Network.modify { m with ruleStops := m.ruleStops.push stop } start fun st =>
        match st.kind with
        | .ruleStart _ p l => { st with kind := .ruleStart (some stop) p l }
        | _ => st)) :
    (net'.Draft ∧ net'.ruleStarts = net.ruleStarts ∧ net'.ruleStops.size = net.ruleStarts.size) ∧
        P net' := by
  simp only [linkStops, bind_eq_ok] at hn
  obtain ⟨-, -, hn⟩ := hn
  have key := foldlM_range_keeps (P := fun k m => m.Draft ∧ m.ruleStarts = net.ruleStarts ∧
    m.ruleStops.size = k ∧ P m) ?_ ⟨h, rfl, by simp [hs], hP⟩ hn
  · obtain ⟨hd, hstart, hsize, hP⟩ := key
    exact ⟨⟨hd, hstart, hsize⟩, hP⟩
  intro k hk m m' ⟨hd, hstart, hsize, hP⟩ hm
  simp only [bind_eq_ok, liftM_defect_eq_ok, liftM_fault_eq_ok, pure_eq_ok, Fault.ofLookup_eq_ok]
    at hm
  obtain ⟨stop, hstop, start, hlookup, st, -, rfl⟩ := hm
  have hst := stopOf_eq_ok hd hstop
  have pushed : Network.Draft { m with ruleStops := m.ruleStops.push stop } :=
    hd.pushStop (by rw [hsize, hstart]; exact hk) (hsize ▸ hst)
  have hlookup : m.ruleStarts[k]? = some start := hlookup
  refine ⟨pushed.modify_link ⟨fun st => ?_, fun st => ?_⟩, hstart, by simp [hsize, Network.modify],
    step m start stop hd hstart (by rw [hsize, ← hstart]; exact hlookup) (hsize ▸ hstop) hP⟩
  · split <;> rfl
  · split
    · rename_i hk; rw [hk]; rfl
    · rfl

theorem linkStops_induction {P : Network → Prop} (h : net.Draft) (hs : net.ruleStops = #[])
    (hn : linkStops net = .ok net') (hP : P net)
    (step : ∀ m : Network, ∀ start, ∀ stop < m.states.size, P m →
      P (Network.modify { m with ruleStops := m.ruleStops.push stop } start fun st =>
        match st.kind with
        | .ruleStart _ p l => { st with kind := .ruleStart (some stop) p l }
        | _ => st)) :
    (net'.Draft ∧ net'.ruleStops.size = net'.ruleStarts.size) ∧ P net' := by
  obtain ⟨⟨hd, hstart, hsize⟩, hP⟩ :=
    linkStops_steps h hs hn hP fun m start stop hd _ _ hstop hm => by
    obtain ⟨_, hst, -⟩ := stopOf_eq_ok hd hstop
    exact step m start stop (Network.lt_size hst) hm
  exact ⟨⟨hd, hsize.trans (congrArg _ hstart.symm)⟩, hP⟩

theorem linkStops_keeps (h : net.Draft) (hs : net.ruleStops = #[])
    (hn : linkStops net = .ok net') : net'.Draft ∧ net'.ruleStops.size = net'.ruleStarts.size :=
  (linkStops_induction (P := fun _ => True) h hs hn trivial fun _ _ _ _ _ => trivial).1

theorem readMode_eq_ok (hn : readMode net c = .ok (net', c')) :
    ∃ s, (∃ st : State, net.states[s]? = some st ∧ st.kind.isTokensStart = true) ∧
      net' = { net with modes := net.modes.push s } := by
  simp only [readMode, bind_reads, liftM_fault_reads, Network.state_eq_ok] at hn
  obtain ⟨s, d, -, -, e, -, st, e', ⟨hst, rfl⟩, hn⟩ := hn
  rw [guard_reads] at hn
  exact ⟨s, ⟨st, hst, hn.1⟩, (pure_reads.1 hn.2).1.symm⟩

theorem readMode_keeps (h : net.Draft) (hn : readMode net c = .ok (net', c')) :
    net'.Draft ∧ Network.SameRules net net' := by
  obtain ⟨s, hs, rfl⟩ := readMode_eq_ok hn
  exact ⟨h.pushMode hs, ⟨rfl, rfl⟩⟩

theorem makeEdge_within {sets : List SymbolSet} {kind : EdgeKind} {target a b i : Nat} {e : Edge}
    (ht : target < net.states.size) (he : makeEdge net sets kind target a b i c = .ok (e, c')) :
    e.Within net.states.size := by
  cases kind <;> simp only [makeEdge, bind_reads, pure_reads] at he
  case call =>
    obtain ⟨_, _, hr, rfl, -⟩ := he
    exact ⟨(refer_reads.1 hr).1, fun call hc => by obtain rfl := Option.some.inj hc; exact ht⟩
  case set | notSet =>
    obtain ⟨-, -, -, rfl, -⟩ := he
    exact ⟨ht, nofun⟩
  all_goals
    obtain ⟨rfl, -⟩ := he
    exact ⟨ht, nofun⟩

theorem readEdge_eq_ok {sets : List SymbolSet} (hn : readEdge sets net c = .ok (net', c')) :
    ∃ s e, e.Within net.states.size ∧ net' = net.addEdge s e ∧
      ∃ kind target a b i c c', makeEdge net sets kind target a b i c = .ok (e, c') := by
  simp only [readEdge, bind_reads] at hn
  obtain ⟨_, _, -, source, _, -, _, _, -, target, _, -, _, _, ht, tag, _, -, a, _, -, b, _, -,
    i, cur, -, hn⟩ := hn
  generalize EdgeKind.ofTag? tag = k at hn
  match k, hn with
  | none, hn => exact (fail_reads.1 hn).elim
  | some kind, hn =>
    simp only [bind_reads, pure_reads] at hn
    obtain ⟨e, _, he, -, -, -, rfl, -⟩ := hn
    exact ⟨source, e, makeEdge_within (refer_reads.1 ht).1 he, rfl, kind, _, _, _, _, _, _, he⟩

theorem readEdge_keeps {sets : List SymbolSet} (h : net.Draft)
    (hn : readEdge sets net c = .ok (net', c')) : net'.Draft ∧ Network.SameRules net net' := by
  obtain ⟨s, e, he, rfl, -⟩ := readEdge_eq_ok hn
  exact ⟨h.addEdge he, ⟨rfl, rfl⟩⟩

theorem readDecision_eq_ok (hn : readDecision net c = .ok (net', c')) :
    ∃ s d, net.defineDecision s = some (d, net') := by
  simp only [readDecision, bind_reads] at hn
  obtain ⟨s, d, -, _, e, -, _, _, -, hn⟩ := hn
  split at hn
  · simp only [bind_reads, reject_reads] at hn
    simp at hn
  refine ⟨s, ?_⟩
  generalize net.defineDecision s = k at hn
  match k, hn with
  | none, hn => exact (reject_reads.1 hn).elim
  | some (d, m), hn => exact ⟨d, by rw [(pure_reads.1 hn).1]⟩

theorem readDecision_keeps (h : net.Draft) (hn : readDecision net c = .ok (net', c')) :
    net'.Draft ∧ Network.SameRules net net' := by
  obtain ⟨s, d, hn⟩ := readDecision_eq_ok hn
  exact Network.defineDecision_keeps h hn

theorem mem_numberActions {first : Nat} {es : List Edge} {e : Edge}
    (h : e ∈ (numberActions first es).1) :
    e ∈ es ∨ ∃ target rule index dependent, .action target rule index dependent ∈ es ∧
      ∃ i, e = .action target rule (some i) false := by
  induction es generalizing first with
  | nil => cases h
  | cons a es ih =>
    have later {k : Nat} (h : e ∈ (numberActions k es).1) : e ∈ a :: es ∨
        ∃ target rule index dependent,
        .action target rule index dependent ∈ a :: es ∧
        ∃ i, e = .action target rule (some i) false := by
      obtain h | ⟨target, rule, index, dependent, hmem, he⟩ := ih h
      · exact .inl (List.mem_cons_of_mem a h)
      · exact .inr ⟨target, rule, index, dependent, List.mem_cons_of_mem a hmem, he⟩
    cases a
    case action target rule index dependent =>
      obtain rfl | h := List.mem_cons.1 h
      · exact .inr ⟨target, rule, index, dependent, List.mem_cons_self, first, rfl⟩
      · exact later h
    all_goals
      obtain rfl | h := List.mem_cons.1 h
      · exact .inl List.mem_cons_self
      · exact later h

/-- The command table is built state by state, each time with the edges of the state written
anew. -/
theorem withCommands_induction {P : Network → Prop} (h : P net)
    (edges : ∀ m {i : Nat} {st : State}, net.states[i]? = some st → P m → P (m.modify st.number
      fun old => { old with edges := (numberActions m.commands.size st.edges).1 }))
    (commands : ∀ m commands, P m → P { m with commands }) : P (withCommands net) := by
  refine foldl_keeps (l := net.states.toList) (P := P) (f := fun m st =>
    { m.modify st.number fun old =>
        { old with edges := (numberActions m.commands.size st.edges).1 } with
      commands := m.commands ++ (numberActions m.commands.size st.edges).2.toArray })
        (fun st hst m hm => ?_) h
  obtain ⟨i, hi, rfl⟩ := Array.mem_iff_getElem.1 (Array.mem_toList_iff.1 hst)
  exact commands _ _ (edges m (Array.getElem?_eq_getElem hi) hm)

theorem withCommands_keeps (h : net.Draft) :
    (withCommands net).Draft ∧ Network.SameRules net (withCommands net) := by
  suffices key : (withCommands net).Draft ∧ (withCommands net).states.size = net.states.size ∧
      Network.SameRules net (withCommands net) from ⟨key.1, key.2.2⟩
  refine withCommands_induction (P := fun m => m.Draft ∧ m.states.size = net.states.size ∧
    Network.SameRules net m)
    ⟨h, rfl, .refl net⟩ ?_ ?_
  · rintro m i st hst ⟨hm, hsize, hsame⟩
    have hw : ∀ e ∈ (numberActions m.commands.size st.edges).1, e.Within m.states.size := by
      rw [hsize]
      intro e he
      obtain hold | ⟨_, _, _, _, hold, _, rfl⟩ := mem_numberActions he
      · exact (h.within hst).edges e hold
      · exact ⟨((h.within hst).edges _ hold).1, nofun⟩
    refine ⟨hm.modify ⟨fun _ _ => rfl, fun _ _ => rfl, fun _ _ => rfl, fun old hold => ⟨hw, ?_⟩⟩
      fun _ => rfl, Network.size_modify.trans hsize, hsame.trans .modify⟩
    simp only [State.followed, hm.bare hold, Option.getD_none]
    exact hw
  · rintro m commands ⟨hm, hsize, hsame⟩
    exact ⟨⟨⟨hm.number, hm.within, hm.start, hm.stop, hm.mode, hm.decision⟩, hm.bare, hm.stops⟩,
      hsize, ⟨hsame.starts, hsame.stops⟩⟩

/-- A parser has no commands, and a lexer reads its table or builds it from the action edges. -/
theorem readCommands_eq_ok {version : Version} (hn : readCommands version net c = .ok (net', c')) :
    (∃ commands, net' = { net with commands }) ∨ net' = withCommands net := by
  rcases net with ⟨_ | _, _⟩
  · simp only [readCommands] at hn
    split at hn
    · simp only [bind_reads, pure_reads] at hn
      obtain ⟨commands, _, -, rfl, -⟩ := hn
      exact .inl ⟨_, rfl⟩
    · exact .inr (pure_reads.1 hn).1.symm
  · exact .inl ⟨_, (pure_reads.1 hn).1.symm⟩

theorem readCommands_keeps {version : Version} (h : net.Draft)
    (hn : readCommands version net c = .ok (net', c')) :
    net'.Draft ∧ Network.SameRules net net' := by
  obtain ⟨commands, rfl⟩ | rfl := readCommands_eq_ok hn
  · exact ⟨⟨⟨h.number, h.within, h.start, h.stop, h.mode, h.decision⟩, h.bare, h.stops⟩, rfl, rfl⟩
  · exact withCommands_keeps h

/-- A section of the stream: the step runs as often as the section says, from network `a` to `b`. -/
def Section (step : Network → Reader Network) (a b : Network) : Prop :=
  ∃ c c', countedSteps step a c = .ok (b, c')

theorem Section.keeps {step : Network → Reader Network} {P : Network → Prop} {a b : Network}
    (h : Section step a b) (hs : ∀ a c a' c', P a → step a c = .ok (a', c') → P a') (ha : P a) :
    P b := by
  obtain ⟨c, c', h⟩ := h
  exact countedSteps_keeps hs ha h

/-- The networks between the sections of a stream. -/
structure Sections (net : Network) where
  version : Version
  sets : List SymbolSet
  (states nonGreedy precedence rules linked modes edges returns blocks loops decisions commands :
    Network)
  readStates : ∃ (kind : GrammarKind) (maxToken : Nat) (c c' : Cursor),
    readStates { kind, maxToken } c = .ok (states, c')
  readNonGreedy : Section readNonGreedy states nonGreedy
  readPrecedence : Section readPrecedenceRule nonGreedy precedence
  readRules : Section (readRule version) precedence rules
  linkStops : linkStops rules = .ok linked
  readModes : Section readMode linked modes
  readSets : ∃ c c', readSets version c = .ok (sets, c')
  readEdges : Section (readEdge sets) modes edges
  addReturns : ∃ n, edges.withReturnEdges = .ok (n, returns)
  linkBlocks : returns.linkBlocks = .ok blocks
  linkLoops : blocks.linkLoops = .ok loops
  readDecisions : Section readDecision loops decisions
  readCommands : ∃ c c', readCommands version decisions c = .ok (commands, c')
  markPrecedences : commands.markPrecedences = .ok net

theorem decode_sections {words : List Word} (hn : decode words = .ok net) :
    Nonempty (Sections net) := by
  simp only [decode, map_eq_ok, Prod.exists, exists_and_right, exists_eq_right] at hn
  obtain ⟨c', hn⟩ := hn
  simp only [readNetwork, bind_reads, liftM_load_reads, liftM_fault_reads] at hn
  obtain ⟨version, _, -, kind, _, -, maxToken, _, -, n1, _, h1, n2, _, h2, n3, _, h3, n4, _, h4,
    n5, _, ⟨h5, rfl⟩, n6, _, h6, sets, _, hsets, n7, _, h7, ⟨_, n8⟩, _, ⟨h8, rfl⟩, n9, _, ⟨h9, rfl⟩,
    n10, _, ⟨h10, rfl⟩, n11, _, h11, n12, _, h12, h13, rfl⟩ := hn
  exact ⟨⟨version, sets, n1, n2, n3, n4, n5, n6, n7, n8, n9, n10, n11, n12, ⟨_, _, _, _, h1⟩,
    ⟨_, _, h2⟩, ⟨_, _, h3⟩, ⟨_, _, h4⟩, h5, ⟨_, _, h6⟩, ⟨_, _, hsets⟩, ⟨_, _, h7⟩, ⟨_, h8⟩, h9, h10,
    ⟨_, _, h11⟩, ⟨_, _, h12⟩, h13⟩⟩

/-- Each network between the sections is a draft, and no rule has its stop before all have. -/
structure Sections.Drafts {net : Network} (s : Sections net) : Prop where
  states : s.states.Draft ∧ s.states.ruleStops = #[]
  nonGreedy : s.nonGreedy.Draft ∧ s.nonGreedy.ruleStops = #[]
  precedence : s.precedence.Draft ∧ s.precedence.ruleStops = #[]
  rules : s.rules.Draft ∧ s.rules.ruleStops = #[]
  linked : s.linked.Draft ∧ s.linked.ruleStops.size = s.linked.ruleStarts.size
  modes : s.modes.Draft ∧ Network.SameRules s.linked s.modes
  edges : s.edges.Draft ∧ Network.SameRules s.linked s.edges
  returns : s.returns.Draft ∧ Network.SameRules s.linked s.returns
  blocks : s.blocks.Draft ∧ Network.SameRules s.linked s.blocks
  loops : s.loops.Draft ∧ Network.SameRules s.linked s.loops
  decisions : s.decisions.Draft ∧ Network.SameRules s.linked s.decisions
  commands : s.commands.Draft ∧ Network.SameRules s.linked s.commands
  last : net.Draft ∧ Network.SameRules s.linked net

theorem Sections.drafts (s : Sections net) : s.Drafts := by
  -- up to the links of the rules there are no stops, and after them the tables of the rules stay
  have early {step : Network → Reader Network} {a b : Network} (h : Section step a b)
      (hs : ∀ a c a' c', Network.Draft a → step a c = .ok (a', c') →
        a'.Draft ∧ a'.ruleStops = a.ruleStops) (ha : a.Draft ∧ a.ruleStops = #[]) :
      b.Draft ∧ b.ruleStops = #[] :=
    h.keeps (P := fun n => n.Draft ∧ n.ruleStops = #[])
      (fun _ _ _ _ ha h => (hs _ _ _ _ ha.1 h).imp_right (·.trans ha.2)) ha
  have late {step : Network → Reader Network} {a b : Network} (h : Section step a b)
      (hs : ∀ a c a' c', Network.Draft a → step a c = .ok (a', c') →
        a'.Draft ∧ Network.SameRules a a')
      (ha : a.Draft ∧ Network.SameRules s.linked a) : b.Draft ∧ Network.SameRules s.linked b :=
    h.keeps (P := fun n => n.Draft ∧ Network.SameRules s.linked n)
      (fun _ _ _ _ ha h => (hs _ _ _ _ ha.1 h).imp_right ha.2.trans) ha
  have states : s.states.Draft ∧ s.states.ruleStops = #[] := by
    obtain ⟨_, _, _, _, h⟩ := s.readStates
    exact readStates_keeps ⟨rfl, rfl, rfl, rfl⟩ h
  have nonGreedy := early s.readNonGreedy (fun _ _ _ _ => readNonGreedy_keeps) states
  have precedence := early s.readPrecedence (fun _ _ _ _ => readPrecedenceRule_keeps) nonGreedy
  have rules := early s.readRules (fun _ _ _ _ => readRule_keeps) precedence
  have linked := linkStops_keeps rules.1 rules.2 s.linkStops
  have modes := late s.readModes (fun _ _ _ _ => readMode_keeps) ⟨linked.1, .refl _⟩
  have edges := late s.readEdges (fun _ _ _ _ => readEdge_keeps) modes
  have returns : s.returns.Draft ∧ Network.SameRules s.linked s.returns := by
    obtain ⟨_, h⟩ := s.addReturns
    exact (edges.1.withReturnEdges h).imp_right edges.2.trans
  have blocks := (returns.1.linkBlocks s.linkBlocks).imp_right returns.2.trans
  have loops := (blocks.1.linkLoops s.linkLoops).imp_right blocks.2.trans
  have decisions := late s.readDecisions (fun _ _ _ _ => readDecision_keeps) loops
  have commands : s.commands.Draft ∧ Network.SameRules s.linked s.commands := by
    obtain ⟨_, _, h⟩ := s.readCommands
    exact (readCommands_keeps decisions.1 h).imp_right decisions.2.trans
  exact ⟨states, nonGreedy, precedence, rules, linked, modes, edges, returns, blocks, loops,
    decisions, commands, (commands.1.markPrecedences s.markPrecedences).imp_right commands.2.trans⟩

theorem decode_keeps {words : List Word} (hn : decode words = .ok net) :
    net.Draft ∧ net.ruleStops.size = net.ruleStarts.size := by
  obtain ⟨s⟩ := decode_sections hn
  obtain ⟨hd, same⟩ := s.drafts.last
  exact ⟨hd, by rw [same.starts, same.stops, s.drafts.linked.2]⟩

/-- The tokens of the network's grammar are those from 1 to a highest one. -/
def CountsTokens (net : Network) : Prop := 0 ≤ net.maxToken

theorem decode_countsTokens {words : List Word} (hn : decode words = .ok net) :
    CountsTokens net := by
  obtain ⟨s⟩ := decode_sections hn
  have states : CountsTokens s.states := by
    obtain ⟨_, maxToken, _, _, h⟩ := s.readStates
    simp only [readStates, bind_reads, pure_reads] at h
    obtain ⟨_, _, -, -, -, -, -, -, -, heq, -⟩ := h
    rw [← heq]
    exact Int.natCast_nonneg maxToken
  have nonGreedy : CountsTokens s.nonGreedy := s.readNonGreedy.keeps (fun _ _ _ _ ha hn => by
    obtain ⟨_, rfl⟩ := readNonGreedy_eq_ok hn
    exact ha) states
  have precedence : CountsTokens s.precedence := s.readPrecedence.keeps (fun _ _ _ _ ha hn => by
    obtain ⟨_, _, _, _, _, -, -, rfl⟩ := readPrecedenceRule_eq_ok hn
    exact ha) nonGreedy
  have rules : CountsTokens s.rules := s.readRules.keeps (fun _ _ _ _ ha hn => by
    obtain ⟨_, _, -, rfl⟩ := readRule_eq_ok hn
    exact ha) precedence
  have linked : CountsTokens s.linked :=
    (linkStops_induction s.drafts.rules.1 s.drafts.rules.2 s.linkStops rules fun _ _ _ _ hm => hm).2
  have modes : CountsTokens s.modes := s.readModes.keeps (fun _ _ _ _ ha hn => by
    obtain ⟨_, -, rfl⟩ := readMode_eq_ok hn
    exact ha) linked
  have edges : CountsTokens s.edges := s.readEdges.keeps (fun _ _ _ _ ha hn => by
    obtain ⟨_, _, -, rfl, -⟩ := readEdge_eq_ok hn
    exact ha) modes
  have returns : CountsTokens s.returns := by
    obtain ⟨_, h⟩ := s.addReturns
    exact Network.addReturns_induction h edges fun _ _ _ _ hm => hm
  have blocks : CountsTokens s.blocks := foldlM_keeps (fun _ _ _ _ ha hn => by
    obtain ⟨_, -, ⟨-, rfl⟩ | ⟨_, _, _, _, -, -, -, rfl⟩⟩ := Network.linkBlock_cases hn
    · exact ha
    · exact ha) returns s.linkBlocks
  have loops : CountsTokens s.loops := foldlM_keeps (fun _ _ _ _ ha hn =>
    Network.linkLoop_induction hn ha (fun _ _ _ _ _ _ _ hm => hm) fun _ _ _ _ _ _ hm => hm) blocks
      s.linkLoops
  have decisions : CountsTokens s.decisions := s.readDecisions.keeps (fun _ _ _ _ ha hn => by
    obtain ⟨_, _, hn⟩ := readDecision_eq_ok hn
    obtain ⟨_, _, -, -, -, -, rfl⟩ := Network.defineDecision_eq_some hn
    exact ha) loops
  have commands : CountsTokens s.commands := by
    obtain ⟨_, _, h⟩ := s.readCommands
    obtain ⟨_, heq⟩ | heq := readCommands_eq_ok h
    · rw [heq]
      exact decisions
    · rw [heq]
      refine foldl_keeps ?_ decisions
      exact fun _ _ _ hm => hm
  refine foldlM_keeps (fun _ _ _ _ ha hn => ?_) commands s.markPrecedences
  obtain rfl | ⟨_, _, _, _, -, -, -, rfl⟩ := Network.markPrecedence_cases hn
  · exact ha
  · exact ha

end Wire

end GrammarWalk
