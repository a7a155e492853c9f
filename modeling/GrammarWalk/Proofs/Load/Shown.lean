import GrammarWalk.Proofs.Load.Structure

/-! What a load shows of its states and does not change afterwards. A part of a state's kind that
neither decisions nor the links of blocks and loops have to do with goes through all passes behind
the links of the rules. -/

namespace GrammarWalk

open Network Wire Reader

/-- A part of a kind that decisions and the links of blocks and loops have nothing to do with, and
that no state has which is added in between. -/
class StateKind.Steady {α : Type} (g : StateKind → Option α) : Prop where
  basic : g .basic = none
  blockStart : ∀ flavor stop d, g (.blockStart flavor stop d) = none
  blockEnd : ∀ start, g (.blockEnd start) = none
  starLoopEntry : ∀ d loopback loopback' p, g (.starLoopEntry d loopback p) =
    g (.starLoopEntry d loopback' p)
  mapDecision : ∀ k f, g (StateKind.mapDecision f k) = g k

open StateKind (Steady)

namespace Network

variable {α : Type} {g : StateKind → Option α} {net net' : Network} {s : Nat} {f : State → State}

/-- What the kind of state `s` shows, with the rule that the state belongs to. -/
def shownAt (net : Network) (g : StateKind → Option α) (s : Nat) : Option (α × Option Nat) :=
  net.states[s]?.bind fun st => (g st.kind).map (·, st.rule)

theorem shownAt_of_getElem? {st : State} (h : net.states[s]? = some st) :
    net.shownAt g s = (g st.kind).map (·, st.rule) := by
  rw [shownAt, h, Option.bind_some]

theorem shownAt_eq_some {a : α} {rule : Option Nat} : net.shownAt g s = some (a, rule) ↔
    ∃ st, net.states[s]? = some st ∧ g st.kind = some a ∧ st.rule = rule := by
  simp [shownAt, Option.bind_eq_some_iff]

/-- The states of `net` show the same in `net'`, and no others show anything. -/
structure SameShown (g : StateKind → Option α) (net net' : Network) :
    Prop extends SameRules net net' where
  shown : ∀ s, net'.shownAt g s = net.shownAt g s

namespace SameShown

theorem refl (net : Network) : SameShown g net net := ⟨.refl net, fun _ => rfl⟩

theorem trans {a b c : Network} (h : SameShown g a b) (h' : SameShown g b c) : SameShown g a c :=
  ⟨h.toSameRules.trans h'.toSameRules, fun s => (h'.shown s).trans (h.shown s)⟩

theorem modify
    (hf : ∀ st, net.states[s]? = some st → (f st).rule = st.rule ∧ g (f st).kind = g st.kind) :
    SameShown g net (net.modify s f) := by
  refine ⟨.modify, fun t => ?_⟩
  rw [shownAt, shownAt, getElem?_modify]
  split
  · subst s
    cases ht : net.states[t]? with
    | none => rfl
    | some st =>
      obtain ⟨hrule, hshown⟩ := hf st ht
      show Option.map _ (g (f st).kind) = _
      rw [hrule, hshown]
      rfl
  · rfl

theorem addEdge {e : Edge} : SameShown g net (net.addEdge s e) := modify fun _ _ => ⟨rfl, rfl⟩

theorem addState {kind : StateKind} {rule : Option Nat} (hk : g kind = none) :
    SameShown g net (net.addState kind rule).2 := by
  refine ⟨.addState, fun t => ?_⟩
  rw [shownAt, shownAt, getElem?_addState_eq]
  split
  · subst t
    rw [Array.getElem?_eq_none (Nat.le_refl _)]
    simp [hk]
  · rfl

theorem of_kinds (hrules : SameRules net net')
    (hold : ∀ {s : Nat} {st : State}, net.states[s]? = some st → ∃ st', net'.states[s]? = some st' ∧
      st'.kind = st.kind ∧ st'.rule = st.rule)
    (hnew : ∀ {s : Nat} {st' : State}, net'.states[s]? = some st' → net.states[s]? = none →
      g st'.kind = none) : SameShown g net net' := by
  refine ⟨hrules, fun s => ?_⟩
  cases hs : net.states[s]? with
  | some st =>
    obtain ⟨st', hst', hk, hrule⟩ := hold hs
    rw [shownAt_of_getElem? hs, shownAt_of_getElem? hst', hk, hrule]
  | none =>
    rw [shownAt, shownAt, hs, Option.bind_none, Option.bind_eq_none_iff]
    intro st' hst'
    rw [hnew hst' hs]
    rfl

theorem redirect {old new : Nat} {kept : Option Nat} :
    SameShown g net (net.redirect old new kept) :=
  .of_kinds ⟨rfl, rfl⟩ (fun hs => ⟨_, getElem?_redirect_of hs, rfl, rfl⟩) fun hs hnone => by
    rw [getElem?_redirect, hnone] at hs
    cases hs

theorem markPrecedences
    (hmark : ∀ d loopback p, g (.starLoopEntry d loopback true) = g (.starLoopEntry d loopback p))
    (hn : net.markPrecedences = .ok net') : SameShown g net net' := by
  refine foldlM_keeps (P := SameShown g net) (fun _ _ m m' hm hs => ?_) (.refl net) hn
  obtain rfl | ⟨st, d, loopback, p, hst, hk, -, rfl⟩ := markPrecedence_cases hs
  · exact hm
  · refine hm.trans (.modify fun st' hst' => ⟨rfl, ?_⟩)
    obtain rfl := Option.some.inj (hst.symm.trans hst')
    rw [hk]
    exact hmark d loopback p

theorem withTailCalls (hn : net.withTailCalls = .ok net') : SameShown g net net' := by
  have same := (withTailCalls_eq_ok hn).1
  refine .of_kinds ⟨by rw [same], by rw [same]⟩ (fun hs => ?_) fun hs hnone => ?_
  · obtain ⟨st', hst', hj⟩ := getElem?_withTailCalls hn hs
    exact ⟨st', hst', by rw [hj.rest], by rw [hj.rest]⟩
  · obtain ⟨st, hst, -⟩ := judged_of_getElem? hn hs
    rw [hnone] at hst
    cases hst

variable [Steady g]

theorem linkBlocks (hn : net.linkBlocks = .ok net') : SameShown g net net' := by
  refine foldlM_keeps (P := SameShown g net) (fun s _ m m' hm hs => ?_) (.refl net) hn
  obtain ⟨st, -, ⟨-, rfl⟩ | ⟨_, stop, _, e, -, he, hopen, rfl⟩⟩ := linkBlock_cases hs
  · exact hm
  · refine hm.trans (.modify fun st' hst' => ⟨rfl, ?_⟩)
    obtain rfl := Option.some.inj (he.symm.trans hst')
    rw [hopen]
    exact (Steady.blockEnd ..).trans (Steady.blockEnd ..).symm

theorem linkLoops (hn : net.linkLoops = .ok net') : SameShown g net net' := by
  refine foldlM_keeps (P := SameShown g net) (fun s _ m m' hm hs => ?_) (.refl net) hn
  refine linkLoop_induction (P := SameShown g net) hs hm ?_ ?_
  · refine fun _ _ _ _ e _ _ hm => hm.trans (.modify fun st _ => ⟨?_, ?_⟩)
    · rw [(changesLink_closePlus s).eq st]
    · unfold closePlus
      split
      · rename_i hk
        rw [hk]
        exact (Steady.blockStart ..).trans (Steady.blockStart ..).symm
      · rfl
  · refine fun _ _ _ e _ _ hm => hm.trans (.modify fun st _ => ⟨?_, ?_⟩)
    · rw [(changesLink_closeStar s).eq st]
    · unfold closeStar
      split
      · rename_i hk
        rw [hk]
        exact Steady.starLoopEntry ..
      · rfl

theorem defineDecision {d : Nat} (hn : net.defineDecision s = some (d, net')) :
    SameShown g net net' := by
  obtain ⟨st, dec, -, -, -, -, rfl⟩ := defineDecision_eq_some hn
  have h : SameShown g net (net.modify s fun st => { st with
      kind := st.kind.mapDecision fun d => { d with number := some net.decisions.size } }) :=
    .modify fun _ _ => ⟨rfl, Steady.mapDecision ..⟩
  exact ⟨⟨rfl, rfl⟩, h.shown⟩

theorem addBypass {rule : Nat} (hn : net.addBypass rule = .ok net') : SameShown g net net' := by
  obtain ⟨b, rfl⟩ := addBypass_stages hn
  have block : SameShown g net b.opened :=
    ((addState (Steady.blockStart ..)).trans (addState (Steady.blockEnd ..))).trans
      (defineDecision b.defineDecision)
  have edges : SameShown g b.led b.result := by
    refine .of_kinds b.sameTables_result.sameRules
      (fun hs => ⟨_, b.getElem?_result_of_led hs, rfl, rfl⟩) fun hs hnone => ?_
    obtain ⟨-, rfl⟩ | ⟨_, hold, -⟩ := b.getElem?_result_cases hs
    · exact Steady.basic
    · exact nomatch hnone.symm.trans hold
  exact (block.trans redirect).trans edges

theorem withBypasses (hn : net.withBypasses = .ok net') : SameShown g net net' := by
  refine foldlM_keeps (P := SameShown g net) (fun _ _ _ _ hm hs => hm.trans (addBypass hs)) ?_ hn
  exact ⟨⟨rfl, rfl⟩, fun _ => rfl⟩

theorem rewrite {free : Call → Edge → Prop} (h : Rewrite free net net') : SameShown g net net' := by
  obtain ⟨s, st, es', hgrow, -⟩ := h.grows
  refine .of_kinds ⟨by rw [hgrow.tables], by rw [hgrow.tables]⟩ (fun hs => ?_)
    fun {u st'} hs hnone => ?_
  · obtain ⟨l, hl⟩ := hgrow.old hs
    exact ⟨_, hl, rfl, rfl⟩
  · obtain ⟨m, r, rfl, -⟩ := hgrow.new hs (Array.getElem?_eq_none_iff.1 hnone)
    exact Steady.basic

theorem optimize (hr : net.InRange) {changes : Changes} (hn : net.optimize = .ok (changes, net')) :
    SameShown g net net' := by
  refine optimize_of_rewrites hr ?_ (fun hm hstep => hm.trans (rewrite hstep)) hn
  exact .of_kinds ⟨rfl, rfl⟩
    (fun hs => ⟨_, (Array.getElem?_map ..).trans (congrArg (Option.map _) hs), rfl, rfl⟩)
    fun hs hnone => by
      rw [show (net.states.map State.ensureOptimized)[_]? = _ from Array.getElem?_map .., hnone]
        at hs
      cases hs

end SameShown

end Network

namespace Wire

variable {α : Type} {g : StateKind → Option α} {net net' : Network} {c c' : Cursor}

theorem withCommands_shown : SameShown g net (withCommands net) :=
  withCommands_induction (P := SameShown g net) (.refl net)
    (fun _ _ _ _ hm => hm.trans (.modify fun _ _ => ⟨rfl, rfl⟩))
    fun _ _ hm => ⟨⟨hm.starts, hm.stops⟩, hm.shown⟩

theorem readCommands_shown {version : Version} (hn : readCommands version net c = .ok (net', c')) :
    SameShown g net net' := by
  obtain ⟨commands, rfl⟩ | rfl := readCommands_eq_ok hn
  · exact ⟨⟨rfl, rfl⟩, fun _ => rfl⟩
  · exact withCommands_shown

theorem readDecision_shown [Steady g] (hn : readDecision net c = .ok (net', c')) :
    SameShown g net net' := by
  obtain ⟨_, _, hn⟩ := readDecision_eq_ok hn
  exact .defineDecision hn

/-- What the states show is not changed while the rules are read and linked, if it has nothing to do
with what a start knows of its rule. -/
theorem Sections.shown_linked [Steady g] (s : Sections net)
    (hstart : ∀ stop stop' p p' l, g (.ruleStart stop p l) = g (.ruleStart stop' p' l)) (x : Nat) :
    s.linked.shownAt g x = s.states.shownAt g x := by
  let Same (m : Network) : Prop := ∀ x, m.shownAt g x = s.states.shownAt g x
  have nonGreedy : Same s.nonGreedy := s.readNonGreedy.keeps (fun a _ _ _ ha hn x => by
    obtain ⟨t, rfl⟩ := readNonGreedy_eq_ok hn
    have same : SameShown g a (a.modify t fun st =>
        { st with kind := st.kind.mapDecision fun d => { d with nonGreedy := true } }) :=
      .modify fun _ _ => ⟨rfl, Steady.mapDecision ..⟩
    exact (same.shown x).trans (ha x)) fun _ => rfl
  have precedence : Same s.precedence := s.readPrecedence.keeps (fun a _ _ _ ha hn x => by
    obtain ⟨t, st, stop, p, l, hst, hk, rfl⟩ := readPrecedenceRule_eq_ok hn
    have same : SameShown g a (a.modify t fun st => { st with kind := .ruleStart stop true l }) :=
      .modify fun st' hst' => by
        obtain rfl := Option.some.inj (hst.symm.trans hst')
        rw [hk]
        exact ⟨rfl, hstart ..⟩
    exact (same.shown x).trans (ha x)) nonGreedy
  have rules : Same s.rules := s.readRules.keeps (fun a _ _ _ ha hn => by
    obtain ⟨_, _, -, rfl⟩ := readRule_eq_ok hn
    exact ha) precedence
  refine (linkStops_steps (P := Same) s.drafts.rules.1 s.drafts.rules.2 s.linkStops rules
    fun m start stop _ _ _ _ hm x => ?_).2 x
  refine ((SameShown.modify (g := g) fun st _ => ?_).shown x).trans (hm x)
  obtain ⟨_, _, kind⟩ := st
  cases kind <;> first | exact ⟨rfl, hstart ..⟩ | exact ⟨rfl, rfl⟩

theorem Sections.shown_edges (s : Sections net) : SameShown g s.linked s.edges := by
  have modes : SameShown g s.linked s.modes := s.readModes.keeps (fun _ _ _ _ hm hn => by
    obtain ⟨_, -, rfl⟩ := readMode_eq_ok hn
    exact ⟨⟨hm.starts, hm.stops⟩, hm.shown⟩) (.refl _)
  exact s.readEdges.keeps (fun _ _ _ _ hm hn => by
    obtain ⟨_, _, -, rfl, -⟩ := readEdge_eq_ok hn
    exact hm.trans .addEdge) modes

/-- What the states show once their rules are linked goes through the rest of the stream. -/
theorem Sections.shown [Steady g] (s : Sections net) (hmark : ∀ d loopback p,
    g (.starLoopEntry d loopback true) = g (.starLoopEntry d loopback p)) :
    SameShown g s.linked net := by
  have returns : SameShown g s.linked s.returns := by
    obtain ⟨_, h⟩ := s.addReturns
    exact addReturns_induction h s.shown_edges fun _ _ _ _ hm => hm.trans .addEdge
  have loops := (returns.trans (.linkBlocks s.linkBlocks)).trans (.linkLoops s.linkLoops)
  have decisions : SameShown g s.linked s.decisions :=
    s.readDecisions.keeps (fun _ _ _ _ hm hn => hm.trans (readDecision_shown hn)) loops
  have commands : SameShown g s.linked s.commands := by
    obtain ⟨_, _, h⟩ := s.readCommands
    exact decisions.trans (readCommands_shown h)
  exact commands.trans (.markPrecedences hmark s.markPrecedences)

end Wire

/-- What the states of a decoded network show goes through the bypasses, the optimization and the
tail calls. -/
theorem loadWords_shown {α : Type} {g : StateKind → Option α} [Steady g] {words : List Word}
    {options : LoadOptions} {net : Network} (hn : loadWords words options = .ok net) :
    ∃ decoded, decode words = .ok decoded ∧ SameShown g decoded net := by
  obtain ⟨decoded, bypassed, opt, hdecode, hbypass, hopt, -, htails⟩ := loadWords_eq_ok hn
  obtain ⟨hd, hsize⟩ := bypassed_keeps hdecode hbypass
  refine ⟨decoded, hdecode, ?_⟩
  have bypasses : SameShown g decoded bypassed := by
    obtain rfl | hbypass := hbypass
    · exact .refl _
    · exact .withBypasses hbypass
  have optimized : SameShown g bypassed opt := by
    obtain ⟨-, rfl⟩ | ⟨-, changes, ho⟩ := hopt
    · exact .refl _
    · exact .optimize (hd.toWired.inRange hsize.ge) ho
  exact (bypasses.trans optimized).trans (.withTailCalls htails)

end GrammarWalk
