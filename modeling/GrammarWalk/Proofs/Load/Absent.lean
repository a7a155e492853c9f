import GrammarWalk.Proofs.Load.Written
import GrammarWalk.Proofs.Load.Shown

/-! One word of a stream stands for an absent number, for -1 or for the end of input. The writer
writes that word for the number 65535 as well, which is read back as absent. All other numbers in
the same places are read back as they were. -/

namespace GrammarWalk

open Network Wire Reader

namespace Wire

variable {words : List Word}

/-- What a stream carries of a number that may be absent: the greatest word is taken for none. -/
def carried (value : Option Nat) : Option Nat := if value = some absent then none else value

def carriedInt (value : Int) : Int := if value = absent then -1 else value

/-- Only the greatest word is lost. -/
theorem carried_eq_self {value : Option Nat} : carried value = value ↔ value ≠ some absent := by
  unfold carried
  split
  · simp [*]
  · simp [*]

theorem carriedInt_eq_self {value : Int} : carriedInt value = value ↔ value ≠ absent := by
  unfold carriedInt
  split
  · simp [*, absent]
  · simp [*]

theorem reads_putAbsent (h : putAbsent = .ok words) : Reads word words (· = absent) := by
  obtain rfl := pure_eq_ok.1 h
  exact Reads.word _

theorem reads_putOptional {what : Item} {value : Option Nat}
    (h : putOptional what value = .ok words) : Reads optional words (· = carried value) := by
  cases value with
  | none =>
    refine (reads_putAbsent h).bind_last fun n hn => .pure ?_
    rw [if_pos hn]
    rfl
  | some value =>
    refine (reads_putNat h).bind_last fun n hn => .pure ?_
    subst hn
    simp only [carried, Option.some.injEq]

theorem carriedInt_eq {n : Nat} {value : Int} (h : n = value ∨ n = absent ∧ value = -1) :
    (if n = absent then -1 else (n : Int)) = carriedInt value := by
  obtain rfl | ⟨rfl, rfl⟩ := h
  · simp only [carriedInt, Int.natCast_inj]
  · rfl

theorem reads_putOperand_word {what : Item} {value : Int} (h : putOperand what value = .ok words) :
    Reads word words fun n => (if n = absent then -1 else (n : Int)) = carriedInt value := by
  unfold putOperand at h
  split at h
  · exact (reads_putAbsent h).imp fun n hn => carriedInt_eq (.inr ⟨hn, ‹_›⟩)
  · exact (reads_putInt h).imp fun n hn => carriedInt_eq (.inl hn)

theorem reads_putOperand {what : Item} {value : Int} (h : putOperand what value = .ok words) :
    Reads operand words (· = carriedInt value) :=
  (reads_putOperand_word h).bind_last fun _ hn => .pure hn

def carriedRule (st : State) : Option Nat := if st.kind = .invalid then none else carried st.rule

theorem tag_lt (t : StateType) : t.tag < UInt16.size := by cases t <;> decide

theorem reads_putState {st : State} (h : putState st = .ok words) :
    Reads readRow words (·.rule = carriedRule st) := by
  have htag : Reads (tagged .stateType StateType.ofTag?) [UInt16.ofNat st.kind.type.tag]
      (· = st.kind.type) :=
    .tagged (tag_lt _) (StateType.ofTag?_tag _)
  unfold putState at h
  split at h
  · rename_i hk
    obtain rfl := pure_eq_ok.1 h
    refine htag.bind_last fun type htype => ?_
    rw [htype, hk]
    exact .pure (if_pos hk).symm
  · rename_i hk
    simp only [join_cons, join_nil] at h
    obtain ⟨_, htype, _, ⟨rule, hrule, _, ⟨link, hlink, _, rfl, rfl⟩, rfl⟩, rfl⟩ := h
    obtain rfl := pure_eq_ok.1 htype
    refine htag.bind fun type htype => ?_
    have hne : type ≠ .invalid := by
      rw [htype]
      cases hkind : st.kind with
      | invalid => exact absurd hkind hk
      | blockStart flavor stop d => cases flavor <;> nofun
      | _ => nofun
    rw [if_neg hne]
    refine (reads_putOptional hrule).bind fun rule hrule => ?_
    have hcarried : rule = carriedRule st := hrule.trans (if_neg hk).symm
    have hrest : (({ type, rule } : Row).isLoop || ({ type, rule } : Row).isBlock) = true ∧
        (∃ what n, putNat what n = .ok link) ∨
        (({ type, rule } : Row).isLoop || ({ type, rule } : Row).isBlock) = false ∧ link = [] := by
      subst htype
      cases hkind : st.kind with
      | loopEnd loopback =>
        rw [hkind] at hlink
        exact .inl ⟨rfl, _, _, hlink⟩
      | blockStart flavor stop d =>
        rw [hkind] at hlink
        cases flavor <;> exact .inl ⟨rfl, _, _, hlink⟩
      | _ =>
        rw [hkind] at hlink
        exact .inr ⟨rfl, (pure_eq_ok.1 hlink).symm⟩
    obtain ⟨hlinked, what, n, hn⟩ | ⟨hbare, rfl⟩ := hrest
    · simp only [hlinked, if_true, List.append_nil]
      exact (reads_putNat hn).bind_last fun _ _ => .pure hcarried
    · simp only [hbare]
      exact .pure hcarried

end Wire

def Edge.isAction (e : Edge) : Bool := e.kind == .action

namespace Network

variable {net net' : Network} {s : Nat} {f : State → State}

/-- The rule of state `s` and its actions. -/
def fieldsAt (net : Network) (s : Nat) : Option (Option Nat × List Edge) :=
  net.states[s]?.map fun st => (st.rule, st.edges.filter Edge.isAction)

/-- The networks agree in the data that a stream has an absent number for. -/
structure SameFields (net net' : Network) : Prop where
  kind : net'.kind = net.kind
  tokens : net'.ruleTokens = net.ruleTokens
  commands : net'.commands = net.commands
  fields : ∀ s, net'.fieldsAt s = net.fieldsAt s

theorem fieldsAt_modify {t : Nat} : (net.modify s f).fieldsAt t =
    if s = t then net.states[t]?.map fun st => ((f st).rule, (f st).edges.filter Edge.isAction)
    else net.fieldsAt t := by
  rw [fieldsAt, getElem?_modify]
  split
  · rw [Option.map_map]
    rfl
  · rfl

namespace SameFields

theorem refl (net : Network) : SameFields net net := ⟨rfl, rfl, rfl, fun _ => rfl⟩

theorem trans {a b c : Network} (h : SameFields a b) (h' : SameFields b c) : SameFields a c :=
  ⟨h'.kind.trans h.kind, h'.tokens.trans h.tokens, h'.commands.trans h.commands,
    fun s => (h'.fields s).trans (h.fields s)⟩

theorem modify
    (hf : ∀ st, (f st).rule = st.rule ∧ (f st).edges.filter Edge.isAction =
      st.edges.filter Edge.isAction) : SameFields net (net.modify s f) := by
  refine ⟨rfl, rfl, rfl, fun t => ?_⟩
  rw [fieldsAt_modify]
  split
  · simp only [hf]
    rfl
  · rfl

theorem modify_link (hf : ChangesLink f) : SameFields net (net.modify s f) :=
  .modify fun st => by rw [hf.eq st]; exact ⟨rfl, rfl⟩

theorem withReturnEdges {n : Nat} (hn : net.withReturnEdges = .ok (n, net')) :
    SameFields net net' := by
  refine addReturns_induction (P := SameFields net) hn (.refl net) fun m stop r _ hm =>
    hm.trans (.modify fun st => ⟨rfl, ?_⟩)
  simp [State.addEdge, Edge.isAction, Edge.kind]

theorem linkBlocks (hn : net.linkBlocks = .ok net') : SameFields net net' := by
  refine foldlM_keeps (P := SameFields net) (fun s _ m m' hm hs => ?_) (.refl net) hn
  obtain ⟨st, -, ⟨-, rfl⟩ | ⟨_, stop, _, e, -, -, -, rfl⟩⟩ := linkBlock_cases hs
  · exact hm
  · exact hm.trans (.modify fun _ => ⟨rfl, rfl⟩)

theorem linkLoops (hn : net.linkLoops = .ok net') : SameFields net net' := by
  refine foldlM_keeps (P := SameFields net) (fun s _ m m' hm hs => ?_) (.refl net) hn
  exact linkLoop_induction (P := SameFields net) hs hm
    (fun _ _ _ _ _ _ _ hm => hm.trans (.modify_link (changesLink_closePlus s)))
    fun _ _ _ _ _ _ hm => hm.trans (.modify_link (changesLink_closeStar s))

theorem markPrecedences (hn : net.markPrecedences = .ok net') : SameFields net net' := by
  refine foldlM_keeps (P := SameFields net) (fun s _ m m' hm hs => ?_) (.refl net) hn
  obtain rfl | ⟨_, _, _, _, -, -, -, rfl⟩ := markPrecedence_cases hs
  · exact hm
  · exact hm.trans (.modify fun _ => ⟨rfl, rfl⟩)

theorem defineDecision {d : Nat} (hn : net.defineDecision s = some (d, net')) :
    SameFields net net' := by
  obtain ⟨st, dec, -, -, -, -, rfl⟩ := defineDecision_eq_some hn
  have h : SameFields net (net.modify s fun st => { st with
      kind := st.kind.mapDecision fun d => { d with number := some net.decisions.size } }) :=
        .modify fun _ => ⟨rfl, rfl⟩
  exact ⟨rfl, rfl, rfl, h.fields⟩

theorem linkStops (hn : linkStops net = .ok net') : SameFields net net' := by
  simp only [Wire.linkStops, bind_eq_ok] at hn
  obtain ⟨-, -, hn⟩ := hn
  refine foldlM_keeps (P := SameFields net) (fun rule _ m m' hm hs => ?_) (.refl net) hn
  simp only [bind_eq_ok, liftM_defect_eq_ok, pure_eq_ok] at hs
  obtain ⟨stop, -, start, -, _, -, rfl⟩ := hs
  refine ⟨hm.kind, hm.tokens, hm.commands, fun s => Eq.trans ?_ (hm.fields s)⟩
  refine (SameFields.modify fun st => ?_).fields s
  split <;> exact ⟨rfl, rfl⟩

end SameFields

end Network

namespace Wire

variable {words : List Word} {net net' : Network} {c c' : Cursor}

section marks

theorem reads_mark {α : Type} {what : Item} {reference : Reference} {value : Nat}
    {f : Nat → State → Reader α} {P : α → Prop}
    (h : putNat what value = .ok words) (hf : ∀ s st, Reads (f s st) [] fun _ => True)
    (hP : ∀ c a c', (do
      let s ← word
      refer net reference s
      f s (← net.state s) : Reader α) c = .ok (a, c') → P a) :
    Reads (do
      let s ← word
      refer net reference s
      f s (← net.state s)) words P := by
  refine .of_gives ?_ hP
  refine (reads_putNat h).bind_last fun s _ => Reads.refer.bind_nil fun _ _ => ?_
  exact (Reads.liftM_fault fun _ _ => trivial).bind_nil fun st _ => hf s st

theorem reads_readNonGreedy {what : Item} {value : Nat} (h : putNat what value = .ok words) :
    Reads (readNonGreedy net) words (SameFields net) := by
  refine reads_mark h (fun s st => ?_) fun c a c' hread => ?_
  · split
    · exact .reject
    · exact .pure trivial
  · obtain ⟨s, rfl⟩ := readNonGreedy_eq_ok hread
    exact .modify fun _ => ⟨rfl, rfl⟩

theorem reads_readPrecedenceRule {what : Item} {value : Nat} (h : putNat what value = .ok words) :
    Reads (readPrecedenceRule net) words (SameFields net) := by
  refine reads_mark h (fun s st => ?_) fun c a c' hread => ?_
  · split
    · exact .pure trivial
    · exact .reject
  · obtain ⟨s, _, _, _, _, -, -, rfl⟩ := readPrecedenceRule_eq_ok hread
    exact .modify fun _ => ⟨rfl, rfl⟩

theorem reads_readMode {what : Item} {value : Nat} (h : putNat what value = .ok words) :
    Reads (readMode net) words (SameFields net) := by
  refine reads_mark h (fun s st => .guard (.pure trivial)) fun c a c' hread => ?_
  obtain ⟨s, -, rfl⟩ := readMode_eq_ok hread
  exact ⟨rfl, rfl, rfl, fun _ => rfl⟩

theorem reads_readDecision {what : Item} {value : Nat} (h : putNat what value = .ok words) :
    Reads (readDecision net) words (SameFields net) := by
  refine reads_mark h (fun s st => .guard ?_) fun c a c' hread => ?_
  · split
    · exact .pure trivial
    · exact .reject
  · obtain ⟨_, _, hn⟩ := readDecision_eq_ok hread
    exact .defineDecision hn

end marks

section sets

/-- The spans that are written of a set are as many as its count says: none but a first one is the
end of input alone, as no bound is below that. -/
theorem length_boundsOf {set : SymbolSet} (h : ∀ a ∈ boundsOf set, 0 ≤ a.lo) :
    (boundsOf set).length =
    if set.contains Symbol.eof && set.spans.head?.any (·.hi == Symbol.eof) then set.spans.length - 1
    else set.spans.length := by
  have hmem : ∀ a ∈ set.spans, a.lo ≠ Symbol.eof → 0 ≤ a.lo := by
    intro a ha hne
    exact h a (List.mem_map.2 ⟨a, List.mem_filter.2 ⟨ha, by simp [hne]⟩, if_neg hne⟩)
  have hcanonical := set.canonical
  rw [boundsOf, List.length_map, SymbolSet.contains]
  generalize set.spans = spans at hmem hcanonical ⊢
  cases spans with
  | nil => rfl
  | cons a l =>
    obtain ⟨hle, hbefore, -⟩ := Span.canonical_cons.1 hcanonical
    have ha := hmem a List.mem_cons_self
    have hrest : ∀ b ∈ l, ¬ b.lo = Symbol.eof ∨ ¬ b.hi = Symbol.eof := by
      intro b hb
      have hlt := hbefore b hb
      simp only [Span.Before, Symbol.eof] at hlt ha ⊢
      omega
    by_cases halone : a.lo = Symbol.eof ∧ a.hi = Symbol.eof
    · simpa [halone, Span.contains] using hrest
    · have hhi : a.hi ≠ Symbol.eof := by
        simp only [Symbol.eof] at ha halone ⊢
        omega
      simpa [hhi] using hrest

theorem reads_putSet {put : Int → Written} {bound : Reader Int} {set : SymbolSet}
    (hput : ∀ value words, put value = .ok words → 0 ≤ value ∧ Reads bound words fun _ => True)
    (h : putSet put set = .ok words) : Reads (readSet bound) words fun _ => True := by
  simp only [putSet, List.cons_append, List.nil_append, join_cons] at h
  obtain ⟨_, hcount, _, ⟨atEnd, hend, _, hspans, rfl⟩, rfl⟩ := h
  obtain ⟨chunks, hchunks, rfl⟩ := join_eq_ok.1 hspans
  rw [List.forall₂_map_left_iff] at hchunks
  have hlo : ∀ a ∈ boundsOf set, 0 ≤ a.lo := by
    intro a ha
    obtain ⟨words, -, hwords⟩ := exists_of_forall₂_left hchunks ha
    simp only [join_cons] at hwords
    obtain ⟨_, hlo, -⟩ := hwords
    exact (hput _ _ hlo).1
  obtain rfl := pure_eq_ok.1 hend
  refine (reads_putNat hcount).bind fun n hn => .bind_word ?_
  rw [hn, ← length_boundsOf hlo]
  dsimp only
  refine (Reads.iterate (I := fun _ _ => True) (hchunks.imp fun a words hwords _ set _ => ?_)
    [] trivial).imp
    fun _ _ => trivial
  simp only [join_cons, join_nil] at hwords
  obtain ⟨_, hlo, _, ⟨_, hhi, _, rfl, rfl⟩, rfl⟩ := hwords
  rw [List.append_nil]
  exact (hput _ _ hlo).2.bind fun _ _ => (hput _ _ hhi).2.bind_last fun _ _ => .pure trivial

theorem reads_putSets {sets : List SymbolSet} (h : putSets .newest sets = .ok words) :
    Reads (readSets .newest) words fun _ => True := by
  simp only [putSets, Version.newest, Version.hasWideSets, if_true, join_cons, join_nil] at h
  obtain ⟨_, hnarrow, _, ⟨_, hwide, _, rfl, rfl⟩, rfl⟩ := h
  have narrow : ∀ set words, putSet (putInt .spanBound) set = .ok words →
      Reads (readSet do return ((← word) : Int)) words fun _ => True := by
    intro set words hset
    refine reads_putSet (fun value words hvalue => ?_) hset
    exact ⟨(putInt_eq_ok.1 hvalue).1.1, (reads_putInt hvalue).bind_last fun _ _ => .pure trivial⟩
  have wide : ∀ set words, putSet (putDouble .spanBound) set = .ok words →
      Reads (readSet readWideBound) words fun _ => True := by
    intro set words hset
    refine reads_putSet (fun value words hvalue => ?_) hset
    unfold putDouble at hvalue
    split at hvalue
    · obtain rfl := pure_eq_ok.1 hvalue
      refine ⟨‹_›, Reads.offset.bind_nil fun _ _ => Reads.bind_last (P := fun _ => True) ?_
        fun n _ => ?_⟩
      · exact .bind_word (.bind_word (.pure trivial))
      · exact .ite (fun _ => .pure trivial) fun _ => .fail
    · exact (throw_ne_ok.1 hvalue).elim
  rw [List.append_nil]
  refine (reads_putList (R := fun _ _ => True) hnarrow narrow).bind fun _ _ => ?_
  exact (reads_putList (R := fun _ _ => True) hwide wide).bind_last fun _ _ => .pure trivial

end sets

section states

theorem fieldsAt_states {rows : List Row} {states : List State} {s : Nat}
    (h : List.Forall₂ (fun st r => r.rule = carriedRule st) states rows) :
    Network.fieldsAt { net with states := rows.toArray.mapIdx fun number r =>
      { number, rule := r.rule, kind := r.kind } } s =
      states[s]?.map fun st => (carriedRule st, []) := by
  have hrules : rows.map (·.rule) = states.map carriedRule := by
    rw [← List.forall₂_eq_eq_eq, List.forall₂_map_left_iff, List.forall₂_map_right_iff]
    exact h.flip
  have hat := congrArg (·[s]?.map fun rule => (rule, ([] : List Edge))) hrules
  simpa [Network.fieldsAt, Function.comp_def] using hat

theorem reads_readStates {states : List State}
    (h : putList .stateCount putState states = .ok words) :
    Reads (readStates net) words fun net' =>
      (net'.kind = net.kind ∧ net'.ruleTokens = net.ruleTokens ∧
      net'.commands = net.commands) ∧ ∀ s, net'.fieldsAt s = states[s]?.map fun st =>
      (carriedRule st, []) := by
  refine (reads_putList h fun _ _ => reads_putState).bind_last fun rows hrows => ?_
  have links (f : Row → Bool) (what : Reference) (net : Network) :
      Reads (rows.forM fun r => if f r then r.link.forM (refer net what) else pure ())
          [] fun _ => True :=
    .forM (fun r => .ite (fun _ => by cases r.link <;> [exact .pure trivial; exact .refer]) fun _ =>
      .pure trivial) rows
  refine (links _ _ _).bind_nil fun _ _ => (links _ _ _).bind_nil fun _ _ => .pure ?_
  exact ⟨⟨rfl, rfl, rfl⟩, fun s => fieldsAt_states hrows⟩

end states

section rules

def carriedToken (net : Network) (rule : Nat) : List Int :=
  if net.kind = .lexer then [carriedInt (net.ruleTokens[rule]?.getD 0)] else []

theorem reads_readRule {written : Network} {start rule : Nat}
    (h : putRule written .newest start rule = .ok words) (hk : net.kind = written.kind) :
    Reads (readRule .newest net) words fun net' =>
      (net'.kind = net.kind ∧ net'.commands = net.commands ∧
      ∀ s, net'.fieldsAt s = net.fieldsAt s) ∧
        net'.ruleTokens.toList = net.ruleTokens.toList ++ carriedToken written rule := by
  simp only [putRule, join_cons, join_nil] at h
  obtain ⟨_, hstart, _, ⟨token, htoken, _, ⟨index, hindex, _, rfl, rfl⟩, rfl⟩, rfl⟩ := h
  rw [if_neg (by simp [Version.newest, Version.hasCommandTable]), pure_eq_ok] at hindex
  subst hindex
  rw [List.append_nil, List.append_nil]
  refine (reads_putNat hstart).bind fun s _ => Reads.refer.bind_nil fun _ _ => ?_
  refine (Reads.liftM_fault fun _ _ => trivial).bind_nil fun st _ => .guard ?_
  rcases net with ⟨_ | _, _⟩
  · rw [← hk] at htoken
    refine (reads_putOperand_word htoken).bind_last fun n hn => ?_
    refine .pure ⟨⟨rfl, rfl, fun _ => rfl⟩, ?_⟩
    simp only [carriedToken, ← hk, if_true, Array.toList_push, ← hn]
    rfl
  · rw [← hk] at htoken
    obtain rfl := pure_eq_ok.1 htoken
    refine .pure ⟨⟨rfl, rfl, fun _ => rfl⟩, ?_⟩
    simp [carriedToken, ← hk]

theorem reads_rules {written : Network} (h : putRules written .newest = .ok words)
    (hk : net.kind = written.kind) :
    Reads (countedSteps (readRule .newest) net) words fun net' =>
      (net'.kind = net.kind ∧ net'.commands = net.commands ∧
      ∀ s, net'.fieldsAt s = net.fieldsAt s) ∧
        net'.ruleTokens.toList = net.ruleTokens.toList ++ (List.range written.ruleCount).flatMap
        (carriedToken written) := by
  refine (reads_putSteps (I := fun (done : List (Nat × Nat)) (m : Network) =>
    (m.kind = net.kind ∧ m.commands = net.commands ∧ ∀ s, m.fieldsAt s = net.fieldsAt s) ∧
      m.ruleTokens.toList = net.ruleTokens.toList ++ done.flatMap fun p => carriedToken written p.2)
    h ?_ ⟨⟨rfl, rfl, fun _ => rfl⟩, by simp⟩).imp fun m hm => ⟨hm.1, ?_⟩
  · rintro ⟨start, rule⟩ words hput done m ⟨⟨hkind, hcommands, hfields⟩, htokens⟩
    refine (reads_readRule hput (hkind.trans hk)).imp fun m' ⟨⟨hkind', hcommands', hfields'⟩,
      htokens'⟩ => ⟨⟨?_, ?_, fun s => ?_⟩, ?_⟩
    · exact hkind'.trans hkind
    · exact hcommands'.trans hcommands
    · exact (hfields' s).trans (hfields s)
    · rw [htokens', htokens, List.append_assoc, List.flatMap_append, List.flatMap_singleton]
  · have hindices : (written.ruleStarts.toList.zipIdx.map Prod.snd) =
        List.range written.ruleCount := by
      rw [List.zipIdx_map_snd, List.range_eq_range']
      rfl
    rw [hm.2, ← hindices, List.flatMap_map]

end rules

section edges

def carriedEdge : Edge → Edge
  | .action target rule index contextual => .action target rule (carried index) contextual
  | e => e

/-- The actions of a state that a stream carries, in the order in which the edges are written. -/
def carriedActions (written : List (Nat × Edge)) (s : Nat) : List Edge :=
  (written.filter fun p => p.1 = s ∧ p.2.isAction).map fun p => carriedEdge p.2

theorem actionIndex_eq {written : Network} {index : Option Nat} :
    actionIndex written .newest index = .ok (index.elim (absent : Int) (↑)) := by
  cases index with
  | none => rfl
  | some index =>
    rw [actionIndex, if_neg (by simp [Version.newest, Version.hasCommandTable])]
    rfl

theorem reads_putEdge {written : Network} {sets sets' : List SymbolSet} {source : Nat} {e : Edge}
    (h : putEdge written .newest sets source e = .ok words) :
    Reads (readEdge sets' net) words fun net' =>
      ∃ e', net' = net.addEdge source e' ∧ e'.isAction = e.isAction ∧
      (e.isAction = true → e' = carriedEdge e) := by
  simp only [putEdge, bind_eq_ok, join_cons, join_nil, Prod.exists] at h
  obtain ⟨target, a, b, c, harguments, _, hsource, _, ⟨_, htarget, _,
    ⟨_, htag, _, ⟨_, ha, _, ⟨_, hb, _, ⟨_, hc, _, rfl, rfl⟩, rfl⟩, rfl⟩, rfl⟩, rfl⟩, rfl⟩ := h
  obtain rfl := pure_eq_ok.1 htag
  rw [List.append_nil]
  refine Reads.offset.bind_nil fun _ _ => ?_
  refine (reads_putNat hsource).bind fun s hs => Reads.refer.bind_nil fun _ _ => ?_
  refine (reads_putNat htarget).bind fun t ht => Reads.refer.bind_nil fun _ _ => ?_
  refine (Reads.word _).bind fun tag htag => (reads_putInt ha).bind fun i hi =>
    (reads_putInt hb).bind fun j hj => ?_
  refine (reads_putInt hc).bind_last fun k hk => ?_
  subst hs ht
  have hkind : EdgeKind.ofTag? tag = some e.kind := by
    rw [htag, toNat_word (by generalize e.kind = kind; cases kind <;> decide)]
    exact EdgeKind.ofTag?_tag _
  rw [hkind]
  dsimp only
  have hmade : Reads (makeEdge net sets' e.kind t i j k) [] fun e' =>
      e'.isAction = e.isAction ∧ (e.isAction = true → e' = carriedEdge e) := by
    cases e with
    | action target rule index contextual =>
      simp only [edgeWords, actionIndex_eq, bind_eq_ok, pure_eq_ok, Except.ok.injEq, Prod.mk.injEq]
        at harguments
      obtain ⟨_, rfl, rfl, rfl, rfl, rfl⟩ := harguments
      refine .pure ⟨rfl, fun _ => ?_⟩
      have hindex : (if j = absent then none else some j) = carried index := by
        cases index with
        | none => rw [if_pos (Int.natCast_inj.1 hj)]; rfl
        | some index =>
          obtain rfl := Int.natCast_inj.1 hj
          simp only [carried, Option.some.injEq]
      have hcontextual : (k != 0) = contextual := by
        cases contextual <;> simp only [Bool.false_eq_true, if_true, if_false] at hk <;>
          simp <;> omega
      rw [hindex, hcontextual, Int.natCast_inj.1 hi]
      rfl
    | set | notSet =>
      refine Reads.bind_nil (P := fun _ => True) ?_ fun _ _ => .pure ⟨rfl, nofun⟩
      unfold setAt
      split
      · exact .pure trivial
      · exact .reject
    | call => exact Reads.refer.bind_nil fun _ _ => .pure ⟨rfl, nofun⟩
    | _ => exact .pure ⟨rfl, nofun⟩
  refine hmade.bind_nil fun e' he' =>
    (Reads.liftM_fault fun _ _ => trivial).bind_nil fun _ _ => .pure ?_
  exact ⟨e', rfl, he'⟩

theorem carriedActions_concat {done : List (Nat × Edge)} {source s : Nat} {e : Edge} :
    carriedActions (done ++ [(source, e)]) s =
      carriedActions done s ++ if source = s ∧ e.isAction then [carriedEdge e] else [] := by
  rw [carriedActions, List.filter_append, List.map_append]
  by_cases h : source = s ∧ e.isAction = true
  · rw [if_pos h, List.filter_cons_of_pos (by simpa using h)]
    rfl
  · rw [if_neg h, List.filter_cons_of_neg (by simpa using h)]
    rfl

theorem fieldsAt_addEdge {source s : Nat} {e : Edge} : (net.addEdge source e).fieldsAt s =
    (net.fieldsAt s).map fun p => (p.1, p.2 ++ if source = s ∧ e.isAction then [e] else []) := by
  rw [Network.addEdge, fieldsAt_modify]
  simp only [Network.fieldsAt, Option.map_map, Function.comp_def, State.addEdge, List.filter_append,
    List.filter_singleton]
  by_cases hs : source = s
  · cases e.isAction <;> simp [hs]
  · simp [hs]

theorem reads_edges {written : Network} {sets sets' : List SymbolSet} {edges : List (Nat × Edge)}
    (h : putList .edgeCount (fun (source, e) => putEdge written .newest sets source e) edges =
      .ok words) :
    Reads (countedSteps (readEdge sets') net) words fun net' => (net'.kind = net.kind ∧
      net'.ruleTokens = net.ruleTokens ∧ net'.commands = net.commands) ∧ ∀ s, net'.fieldsAt s =
        (net.fieldsAt s).map fun p => (p.1, p.2 ++ carriedActions edges s) := by
  refine reads_putSteps (I := fun done (net' : Network) => (net'.kind = net.kind ∧ net'.ruleTokens =
    net.ruleTokens ∧ net'.commands = net.commands) ∧ ∀ s, net'.fieldsAt s = (net.fieldsAt s).map
    fun p => (p.1, p.2 ++ carriedActions done s)) h ?_ ⟨⟨rfl, rfl, rfl⟩, fun s => ?_⟩
  · rintro ⟨source, e⟩ words hput done m ⟨htables, hfields⟩
    refine (reads_putEdge hput).imp ?_
    rintro _ ⟨e', rfl, haction, hcarried⟩
    refine ⟨htables, fun s => ?_⟩
    rw [fieldsAt_addEdge, hfields, Option.map_map]
    refine congrArg (fun f => Option.map f _) (funext fun p => ?_)
    simp only [Function.comp_apply, carriedActions_concat, List.append_assoc, haction]
    by_cases he : source = s ∧ e.isAction = true
    · rw [if_pos he, if_pos he, hcarried he.2]
    · rw [if_neg he, if_neg he]
  · simp [carriedActions]

end edges

section commands

def carriedCommand (c : Command) : Command :=
  .ofOperands c.kind (carriedInt c.operands.1) (carriedInt c.operands.2)

theorem reads_putCommand {c : Command} (h : putCommand c = .ok words) :
    Reads readCommand words (· = carriedCommand c) := by
  simp only [putCommand, join_cons, join_nil] at h
  obtain ⟨_, htag, _, ⟨_, ha, _, ⟨_, hb, _, rfl, rfl⟩, rfl⟩, rfl⟩ := h
  obtain rfl := pure_eq_ok.1 htag
  rw [List.append_nil]
  refine (Reads.tagged (by generalize c.kind = kind; cases kind <;> decide)
    (CommandKind.ofTag?_tag _)).bind fun kind hkind => ?_
  refine (reads_putOperand ha).bind fun a ha => (reads_putOperand hb).bind_last fun b hb => .pure ?_
  rw [hkind, ha, hb]
  rfl

theorem reads_putCommands {written : Network} (h : putCommands written .newest = .ok words)
    (hk : net.kind = written.kind) :
    Reads (readCommands .newest net) words fun net' =>
      (net'.kind = net.kind ∧ net'.ruleTokens = net.ruleTokens ∧
        ∀ s, net'.fieldsAt s = net.fieldsAt s) ∧
        net'.commands.toList = if net.kind = .lexer then written.commands.toList.map carriedCommand
        else net.commands.toList := by
  unfold putCommands at h
  rw [← hk] at h
  rcases net with ⟨_ | _, _⟩
  · refine (reads_putList h fun _ _ => reads_putCommand).bind_last fun commands hcommands =>
      .pure ⟨⟨rfl, rfl, fun _ => rfl⟩, ?_⟩
    have heq : commands = written.commands.toList.map carriedCommand := by
      rw [← List.forall₂_eq_eq_eq, List.forall₂_map_right_iff]
      exact hcommands.flip
    simpa using heq
  · obtain rfl := pure_eq_ok.1 h
    exact .pure ⟨⟨rfl, rfl, fun _ => rfl⟩, rfl⟩

end commands

section network

theorem reads_identifier {id : Nat} (h : id < Nat.pow 0x10000 identifierWords) :
    Reads identifier (toWords identifierWords id) (· = id) := by
  generalize hl : toWords identifierWords id = l
  have hlength : l.length = identifierWords := hl ▸ length_toWords _ _
  have hwords : List.Forall₂ (fun w words => Reads word words (· = w.toNat)) l (l.map ([·])) :=
    List.forall₂_map_right_iff.2 (List.forall₂_same.2 fun w _ => .word w)
  have htimes := Reads.times hwords
  rw [hlength, ← List.flatMap_def, List.flatMap_singleton'] at htimes
  refine htimes.bind_last fun ns hns => .pure ?_
  have hback : ns.map UInt16.ofNat = l := by
    rw [← List.forall₂_eq_eq_eq, List.forall₂_map_left_iff]
    exact hns.flip.imp fun n w hn => by rw [hn, UInt16.ofNat_toNat]
  rw [hback, ← hl, ofWords_toWords, Nat.mod_eq_of_lt h]

theorem reads_readVersion :
    Reads readVersion ([UInt16.ofNat formatNumber] ++
      toWords identifierWords Version.newest.identifier)
    (· = .newest) := by
  refine (Reads.word _).bind fun found hfound => ?_
  rw [if_neg (by rw [hfound]; decide)]
  refine (reads_identifier (by decide)).bind_last fun id hid => ?_
  rw [hid, Version.ofIdentifier?_identifier]
  exact .pure rfl

theorem reads_kind (kind : GrammarKind) :
    Reads (tagged .grammarKind GrammarKind.ofTag?) [UInt16.ofNat kind.tag] (· = kind) :=
  .tagged (by cases kind <;> decide) (by cases kind <;> rfl)

/-- A network is read from the words of another one as these carry it. -/
structure CarriedFrom (written net : Network) : Prop where
  kind : net.kind = written.kind
  tokens : net.ruleTokens.toList = (List.range written.ruleCount).flatMap (carriedToken written)
  commands : net.commands.toList =
    if written.kind = .lexer then written.commands.toList.map carriedCommand else []
  fields : ∀ s, net.fieldsAt s = written.states[s]?.map fun st =>
    (carriedRule st, carriedActions (writtenEdges written) s)

theorem CarriedFrom.same {written : Network} (h : CarriedFrom written net)
    (hsame : SameFields net net') : CarriedFrom written net' where
  kind := hsame.kind.trans h.kind
  tokens := (congrArg _ hsame.tokens).trans h.tokens
  commands := (congrArg _ hsame.commands).trans h.commands
  fields s := (hsame.fields s).trans (h.fields s)

theorem reads_putNetwork {written : Network} (h : putNetwork written .newest = .ok words) :
    Reads readNetwork words (CarriedFrom written) := by
  simp only [putNetwork, putStates, join_cons, join_nil] at h
  obtain ⟨_, hformat, _, ⟨_, hid, _, ⟨_, hkind, _,
    ⟨_, hmax, _, ⟨_, ⟨_, hstates, _, ⟨_, hnonGreedy, _, ⟨_, hprecedence, _, rfl, rfl⟩, rfl⟩, rfl⟩,
    _, ⟨_, hrules, _, ⟨_, hmodes, _, ⟨_, hsets, _, ⟨_, hedges, _, ⟨_, hdecisions, _,
    ⟨_, hcommands, _, rfl, rfl⟩, rfl⟩, rfl⟩, rfl⟩, rfl⟩, rfl⟩, rfl⟩, rfl⟩, rfl⟩, rfl⟩, rfl⟩ := h
  obtain rfl := pure_eq_ok.1 hformat
  obtain rfl := pure_eq_ok.1 hid
  obtain rfl := pure_eq_ok.1 hkind
  simp only [List.append_nil, List.append_assoc]
  rw [← List.append_assoc]
  refine reads_readVersion.bind fun version hversion => ?_
  subst hversion
  refine (reads_kind _).bind fun kind hkind => ?_
  refine (reads_putInt hmax).bind fun maxToken _ => (reads_readStates hstates).bind fun n1 h1 => ?_
  refine (reads_putSteps (I := fun _ => SameFields n1) hnonGreedy (fun _ _ hput _ m hm =>
    (reads_readNonGreedy hput).imp fun _ => hm.trans) (.refl n1)).bind fun n2 h2 => ?_
  refine (reads_putSteps (I := fun _ => SameFields n1) hprecedence (fun _ _ hput _ m hm =>
    (reads_readPrecedenceRule hput).imp fun _ => hm.trans) h2).bind fun n3 h3 => ?_
  refine (reads_rules hrules (h3.kind.trans (h1.1.1.trans hkind))).bind fun n4 h4 => ?_
  refine (Reads.liftM_load fun _ => SameFields.linkStops).bind_nil fun n5 h5 => ?_
  refine (reads_putSteps (I := fun _ => SameFields n4) hmodes (fun _ _ hput _ m hm =>
    (reads_readMode hput).imp fun _ => hm.trans) h5).bind fun n6 h6 => ?_
  refine (reads_putSets hsets).bind fun sets _ => ?_
  refine (reads_edges hedges).bind fun n7 h7 => ?_
  refine (Reads.liftM_fault fun _ => SameFields.withReturnEdges).bind_nil fun ⟨_, n8⟩ h8 => ?_
  refine (Reads.liftM_load fun _ => SameFields.linkBlocks).bind_nil fun n9 h9 => ?_
  refine (Reads.liftM_fault fun _ => SameFields.linkLoops).bind_nil fun n10 h10 => ?_
  refine (reads_putSteps (I := fun _ => SameFields n10) hdecisions (fun _ _ hput _ m hm =>
    (reads_readDecision hput).imp fun _ => hm.trans) (.refl n10)).bind fun n11 h11 => ?_
  obtain ⟨⟨hkind1, htokens1, hcommands1⟩, hfields1⟩ := h1
  obtain ⟨⟨hkind4, hcommands4, hfields4⟩, htokens4⟩ := h4
  obtain ⟨⟨hkind7, htokens7, hcommands7⟩, hfields7⟩ := h7
  have hlate : SameFields n7 n11 := h8.trans (h9.trans (h10.trans h11))
  have hk : n11.kind = written.kind := by
    rw [hlate.kind, hkind7, h6.kind, hkind4, h3.kind, hkind1, hkind]
  refine (reads_putCommands hcommands hk).bind_last fun n12 ⟨⟨hkind12, htokens12, hfields12⟩,
    hcommands12⟩ => ?_
  refine .liftM_fault fun net hn =>
    CarriedFrom.same ⟨hkind12.trans hk, ?_, ?_, fun s => ?_⟩ (.markPrecedences hn)
  · rw [htokens12, hlate.tokens, htokens7, h6.tokens, htokens4, h3.tokens, htokens1]
    rfl
  · rw [hcommands12, hk, hlate.commands, hcommands7, h6.commands, hcommands4,
      h3.commands, hcommands1]
  · rw [hfields12, hlate.fields, hfields7, h6.fields, hfields4, h3.fields, hfields1, Option.map_map,
      Array.getElem?_toList]
    rfl

end network

end Wire

/-- The rules of the states, the token types of a lexer's rules, the operands of its commands and
the command indices of the action edges are read back from a stream as they were written, but for
the number 65535. -/
theorem decode_encode_carries {net net' : Network} {words : List Word} (hw : encode net = .ok words)
    (hd : decode words = .ok net') : CarriedFrom net net' := by
  simp only [encode, encodeAs, Version.ofIdentifier?_identifier, bind_eq_ok, pure_eq_ok] at hw
  obtain ⟨meant, hmeant, rfl⟩ := hw
  simp only [decode, unshift_shiftWords, map_eq_ok, Prod.exists, exists_and_right, exists_eq_right]
    at hd
  obtain ⟨c, hread⟩ := hd
  exact (reads_putNetwork hmeant 0 [] net' c (by rwa [List.append_nil])).2

/-- A lexer of one rule, whose tokens go to channel 65535. -/
def farChannel : Network where
  kind := .lexer
  maxToken := 1
  states := #[
    { number := 0, rule := none, kind := .tokensStart { number := some 0 }, edges := [.plain 1] },
    { number := 1, rule := some 0, kind := .ruleStart (some 2) false false, edges := [.plain 3] },
    { number := 2, rule := some 0, kind := .ruleStop },
    { number := 3, rule := some 0, kind := .basic, edges := [.atom 4 97] },
    { number := 4, rule := some 0, kind := .basic, edges := [.action 2 0 (some 0) false] }]
  decisions := #[0]
  ruleStarts := #[1]
  ruleStops := #[2]
  ruleTokens := #[1]
  modes := #[0]
  commands := #[.channel 0xFFFF]

/-- The channel comes back as -1; all else of the lexer comes back. -/
theorem decode_encode_farChannel : ∃ words, encode farChannel = .ok words ∧
    decode words = .ok { farChannel with commands := #[.channel (-1)] } ∧
    CarriedFrom farChannel { farChannel with commands := #[.channel (-1)] } := by
  obtain ⟨words, hw, hd⟩ := ok_of_any (x := encode farChannel)
    (p := fun words => (decode words).toOption.any
      (· = { farChannel with commands := #[.channel (-1)] })) (by decide +kernel)
  obtain ⟨net, hd, hnet⟩ := ok_of_any hd
  obtain rfl := of_decide_eq_true hnet
  exact ⟨words, hw, hd, decode_encode_carries hw hd⟩

end GrammarWalk
