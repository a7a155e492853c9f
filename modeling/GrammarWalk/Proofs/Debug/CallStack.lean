import GrammarWalk.Proofs.Debug.Parses
import GrammarWalk.Proofs.Load.Marks
import GrammarWalk.Proofs.Parse.Contexts

/-! The call stack of a session lists the rules that its parse is inside of, whatever was asked of
the session before. Frames are pushed when a parse goes past the start of a rule, and open nodes are
added at the call before, so the two differ by one frame in between. -/

namespace GrammarWalk

namespace Session

/-- The rules on the call stack, outermost first, are those of the open nodes from the root on, but
for the innermost as long as the parse stands on its start state; that is the rule of the state in
any case. At the end nothing is open. -/
def InStep (s : Session) (w : Walker) : Prop :=
  if w.finished then s.callStack.toList = [] ∧ w.tree.Open w.context []
  else ∃ c l st, w.tree.Open w.context (c :: l) ∧ s.parser.states[w.state]? = some st ∧
    st.rule = some c.rule ∧
    s.callStack.toList.map (·.rule) = (if st.isRuleStart then l else c :: l).reverse.map (·.rule)

variable {net : Network} {s t : Session} {w w' : Walker} {run : Run} {stop : Bool} {c : Context}
  {l : List Context}

/-- The invariant of a session: its call stack has the rules that the parse has entered. -/
structure Tracks (net : Network) (s : Session) : Prop where
  parser : s.parser = net
  net : ∀ w, s.walker = some w → w.net = net
  done : ∀ w, s.walker = some w → w.finished = true → s.callStack.frames = [] ∧ w.context = none
  running : ∀ w, s.walker = some w → w.finished = false →
    ∃ c l, w.Aligned c l ∧ s.callStack.frames.map (·.rule) = w.entered c l

theorem Tracks.congr (h : Tracks net s) (hparser : t.parser = s.parser)
    (hwalker : t.walker = s.walker)
    (hframes : t.callStack.frames.map (·.rule) = s.callStack.frames.map (·.rule)) :
    Tracks net t := by
  refine ⟨hparser.trans h.parser, fun w hw => h.net w (hwalker ▸ hw), fun w hw hf => ?_,
    fun w hw hf => ?_⟩
  · obtain ⟨hnil, hctx⟩ := h.done w (hwalker ▸ hw) hf
    rw [hnil] at hframes
    exact ⟨List.map_eq_nil_iff.1 hframes, hctx⟩
  · rw [hframes]
    exact h.running w (hwalker ▸ hw) hf

theorem Tracks.inStep (h : Tracks net s) (hw : s.walker = some w) : s.InStep w := by
  unfold InStep
  split
  · rename_i hf
    obtain ⟨hnil, hctx⟩ := h.done w hw hf
    rw [hctx]
    exact ⟨by simp [CallStack.toList, hnil], .nil⟩
  · rename_i hf
    obtain ⟨c, l, ha, hframes⟩ := h.running w hw (by simpa using hf)
    obtain ⟨st, hst, hrule⟩ := Option.bind_eq_some_iff.1 ha.state
    rw [h.net w hw, ← h.parser] at hst
    refine ⟨c, l, st, ha.tree, hst, hrule, ?_⟩
    rw [CallStack.toList, List.map_reverse, List.map_reverse, hframes, Walker.entered,
      Network.startsRule, h.net w hw, ← h.parser, hst, Option.any_some]
    split <;> rfl

section steps

theorem moveAlong_tracks {st : State} (h : Tracks net s) (hmove : s.moveAlong st = .ok t) :
    Tracks net t ∧ t.walker = s.walker ∧ t.callStack.frames.map (·.rule) = s.callStack.frames.map
      (·.rule) := by
  have hframes : t.callStack.frames.map (·.rule) = s.callStack.frames.map (·.rule) := by
    obtain rfl | ⟨f, rest, next, hframes, rfl⟩ := moveAlong_cases hmove
    · rfl
    · rw [hframes]
      rfl
  have hwalker := (moveAlong_keeps hmove).1
  exact ⟨h.congr (parser_moveAlong hmove) hwalker hframes, hwalker, hframes⟩

theorem Tracks.stopIf {e : Event} {b : Bool} (h : Tracks net s) (hstop : s.stopIf b e = (stop, t)) :
    Tracks net t := by
  obtain ⟨-, rfl⟩ := Prod.mk.inj hstop
  refine h.congr ?_ ?_ ?_ <;> cases b <;> rfl

theorem leaveRule_tracks {st : State} {p : Nat} (hseal : net.Sealed) (h : Tracks net s)
    (hw : s.walker = some w) (hf : w.finished = false) (hst : net.states[w.state]? = some st)
    (hstop : st.isRuleStop = true) (hleave : s.leaveRule run w p = .ok (stop, t)) :
    Tracks net t := by
  obtain ⟨c, l, ha, hframes⟩ := h.running w hw hf
  have hnet := h.net w hw
  have hentered : w.entered c l = (c :: l).map (·.rule) :=
    Walker.entered_of_not_startsRule (hnet ▸ Network.startsRule_of_isRuleStop hst hstop)
  rw [hentered] at hframes
  rw [leaveRule, bind_eq_ok] at hleave
  obtain ⟨root, hroot, hleave⟩ := hleave
  split at hleave
  · rename_i his
    obtain rfl : root = true := his
    simp only [bind_eq_ok, pure_eq_ok] at hleave
    obtain ⟨v, hv, hleave⟩ := hleave
    obtain ⟨rfl, hctx, hsame⟩ := ha.finishRoot hroot hv
    have hnil : s.callStack.frames.tail = [] := by
      rw [← List.map_eq_nil_iff (f := (·.rule)), List.map_tail, hframes]
      rfl
    have hdone := Walker.finished_finishRoot hv
    refine Tracks.stopIf ?_ hleave
    refine ⟨h.parser, fun w' hw' => ?_, fun w' hw' _ => ?_, fun w' hw' hf' => ?_⟩
    all_goals obtain rfl := Option.some.inj hw'
    · exact hsame.trans hnet
    · exact ⟨hnil, hctx⟩
    · exact absurd (hdone.symm.trans hf') Bool.noConfusion
  · rename_i his
    simp only [bind_eq_ok, pure_eq_ok] at hleave
    obtain ⟨v, hv, hleave⟩ := hleave
    have hcont := Walker.continues_visitStop hv
    obtain ⟨d, l', rfl, hd, hentered'⟩ :=
      ha.visitStop (hnet ▸ hseal.enclosed) (hnet ▸ hst) (by simpa [his] using hroot) hv
    refine Tracks.stopIf ?_ hleave
    refine ⟨h.parser, fun w' hw' => ?_, fun w' hw' hf' => ?_, fun w' hw' _ => ?_⟩
    all_goals obtain rfl := Option.some.inj hw'
    · exact hcont.net.trans hnet
    · exact absurd (hf'.symm.trans (hcont.finished.trans hf)) Bool.noConfusion
    · refine ⟨d, l', hd, ?_⟩
      rw [hentered', CallStack.pop, List.map_tail, hframes]
      rfl

theorem takeEdge_tracks {st : State} (hwired : net.Wired) (hseal : net.Sealed)
    (hmarks : net.MarksPrecedence) (hparser : s.parser = net) (hnet : w.net = net)
    (ha : w.Aligned c l) (hf : w.finished = false)
    (hframes : s.callStack.frames.map (·.rule) = (c :: l).map (·.rule))
    (hst : net.states[w.state]? = some st) (hns : st.isRuleStop = false)
    (htake : s.takeEdge w = .ok t) : Tracks net t := by
  subst hnet
  rw [takeEdge, bind_eq_ok] at htake
  obtain ⟨visited, hvisit, htake⟩ := htake
  split at htake
  · obtain rfl := pure_eq_ok.1 htake
    have hcont := Walker.continues_visit hvisit
    obtain ⟨c', l', ha', hentered, -⟩ := ha.visit hwired hseal.enclosed hmarks hst hns hvisit
    refine ⟨hparser, fun w' hw' => ?_, fun w' hw' hf' => ?_, fun w' hw' _ => ?_⟩
    all_goals obtain rfl := Option.some.inj hw'
    · exact hcont.net
    · exact absurd (hf'.symm.trans (hcont.finished.trans hf)) Bool.noConfusion
    · exact ⟨c', l', ha', hframes.trans hentered.symm⟩
  · simp only [bind_eq_ok, pure_eq_ok] at htake
    obtain ⟨v, hv, rfl⟩ := htake
    have hcont := Walker.continues_fail hv
    obtain ⟨ha', hentered⟩ := ha.fail hwired hvisit hv
    refine ⟨hparser, fun w' hw' => ?_, fun w' hw' hf' => ?_, fun w' hw' _ => ?_⟩
    all_goals obtain rfl := Option.some.inj hw'
    · exact hcont.net
    · exact absurd (hf'.symm.trans (hcont.finished.trans hf)) Bool.noConfusion
    · exact ⟨c, l, ha', hframes.trans hentered.symm⟩

theorem passState_tracks {st : State} {p : Nat} (hwired : net.Wired) (hseal : net.Sealed)
    (hmarks : net.MarksPrecedence) (h : Tracks net s) (hw : s.walker = some w)
    (hf : w.finished = false) (hst : net.states[w.state]? = some st) (hns : st.isRuleStop = false)
    (hpass : s.passState run w st p = .ok (stop, t)) : Tracks net t := by
  obtain ⟨c, l, ha, hframes⟩ := h.running w hw hf
  have hnet := h.net w hw
  have howner : st.rule = some c.rule := by
    have := ha.state
    rwa [hnet, Network.ownerOf_eq hst] at this
  rw [passState, bind_eq_ok] at hpass
  obtain ⟨v, hv, hpass⟩ := hpass
  have hv : Tracks net v := by
    refine takeEdge_tracks hwired hseal hmarks ?_ hnet ha hf ?_ hst hns hv
    · split <;> exact h.parser
    · rw [Walker.entered, hnet, Network.startsRule, hst, Option.any_some] at hframes
      split
      · rename_i hstart
        rw [if_pos hstart] at hframes
        simp [pushFrame, CallStack.push, hframes, howner]
      · rename_i hstart
        rwa [if_neg hstart] at hframes
  split at hpass
  · exact hv.stopIf (pure_eq_ok.1 hpass)
  · exact hv.stopIf (pure_eq_ok.1 hpass)

theorem step_tracks (hwired : net.Wired) (hseal : net.Sealed) (hmarks : net.MarksPrecedence)
    (h : Tracks net s) (hw : s.walker = some w) (hf : w.finished = false)
    (hstep : s.step run w = .ok (stop, t)) : Tracks net t := by
  simp only [step, bind_eq_ok, Network.state_eq_ok] at hstep
  obtain ⟨st, hst, v, hv, hstep⟩ := hstep
  rw [h.parser] at hst
  obtain ⟨hv, hwalker, -⟩ := moveAlong_tracks h hv
  split at hstep
  · rename_i hstop
    exact leaveRule_tracks hseal hv (hwalker.trans hw) hf hst hstop hstep
  · rename_i hns
    exact passState_tracks hwired hseal hmarks hv (hwalker.trans hw) hf hst
      (by simpa using hns) hstep

theorem enter_tracks {rule : Nat} {input : String} (hwired : net.Wired) (hseal : net.Sealed)
    (h : s.parser = net) (henter : s.enter rule input = .ok (w, t)) : Tracks net t := by
  subst h
  obtain ⟨-, tokens, diagnostics, -, hroot, rfl⟩ := enter_eq_ok henter
  have hcont := Walker.continues_enterRoot hroot
  obtain ⟨ha, hentered⟩ := Walker.aligned_enterRoot hwired hseal.enclosed hroot
  refine ⟨rfl, fun w' hw' => ?_, fun w' hw' hf' => ?_, fun w' hw' _ => ?_⟩
  all_goals obtain rfl := Option.some.inj hw'
  · exact hcont.net
  · exact absurd (hf'.symm.trans hcont.finished) Bool.noConfusion
  · exact ⟨_, _, ha, hentered.symm⟩

theorem answer_tracks (hwired : net.Wired) (hseal : net.Sealed) (hmarks : net.MarksPrecedence)
    (h : Tracks net s) (ask : Ask) : Tracks net (s.answer ask) := by
  have resumed {a b : Session} {mode : RunMode} (ha : Tracks net a) (hr : a.resume mode = .ok b) :
      Tracks net b := by
    obtain rfl | hchain := resume_advances hr
    · exact ha.congr rfl rfl rfl
    · clear hr
      induction hchain with
      | refl => exact ha
      | tail _ hstep ih =>
        obtain ⟨w, run, stop, hw, hf, hstep⟩ := hstep
        exact step_tracks hwired hseal hmarks ih hw hf hstep
  cases ask with
  | start rule input =>
    rw [answer]
    cases hstart : s.start rule input with
    | error e => exact h
    | ok t =>
      simp only [start, bind_eq_ok] at hstart
      obtain ⟨⟨w, u⟩, hu, hstart⟩ := hstart
      have hu := enter_tracks hwired hseal h.parser hu
      split at hstart
      · obtain rfl := pure_eq_ok.1 hstart
        exact hu.congr rfl rfl rfl
      · exact resumed hu hstart
  | resume mode =>
    rw [answer]
    cases hr : s.resume mode with
    | error e => exact h
    | ok t => exact resumed h hr
  | addBreakpoint source line =>
    refine h.congr ?_ ?_ ?_
    all_goals
      unfold answer addBreakpoint
      dsimp only
      split <;> rfl
  | clearBreakpoints => exact h.congr rfl rfl rfl
  | drainEvents => exact h.congr rfl rfl rfl

end steps

/-- A session that is created over a loaded network with sealed rules stays in step with its parse,
whatever is asked of it. -/
theorem callStack_inStep {words : List Wire.Word} {options : LoadOptions} {lexer : Network}
    {grammar : Grammar} {outline : Outline} {stopOnEntry : Bool}
    (hload : loadWords words options = .ok net) (hseal : net.Sealed)
    (hs : create net lexer grammar outline stopOnEntry = .ok s) (asks : List Ask)
    (hw : (asks.foldl answer s).walker = some w) : (asks.foldl answer s).InStep w := by
  have hwired := (loadWords_wired hload).1
  have hmarks := loadWords_marks hload
  have created : Tracks net s := by
    rw [(create_eq_ok.1 hs).2.2]
    exact ⟨rfl, nofun, nofun, nofun⟩
  have hall : Tracks net (asks.foldl answer s) :=
    foldl_keeps (P := Tracks net)
      (fun ask _ s hs => answer_tracks hwired hseal hmarks hs ask) created
  exact hall.inStep hw

open Wire in
/-- Two steps into a call the parse stands behind the start of the rule that is called, with a frame
for each rule. -/
theorem callStack_inStep_oneCall :
    loadWords oneCall { optimize := false } = .ok (loaded oneCall) ∧
    (loaded oneCall).Sealed ∧ create (loaded oneCall) letterSession.lexer default default true =
    .ok (sessionOver oneCall) ∧
    ∃ w, ([.start 0 "", .resume .stepIn, .resume .stepIn].foldl answer
    (sessionOver oneCall)).walker = some w ∧
      w.state = 5 ∧ ([.start 0 "", .resume .stepIn, .resume .stepIn].foldl answer
      (sessionOver oneCall)).InStep w := by
  have hload : loadWords oneCall { optimize := false } = .ok (loaded oneCall) :=
    loadWords_loaded (by decide +kernel)
  have hseal : (loaded oneCall).Sealed := by decide +kernel
  have hs : create (loaded oneCall) letterSession.lexer default default true =
      .ok (sessionOver oneCall) :=
    create_eq_ok.2 ⟨by decide +kernel, rfl, rfl⟩
  obtain ⟨w, hw, hstate⟩ : ∃ w, ([.start 0 "", .resume .stepIn, .resume .stepIn].foldl answer
      (sessionOver oneCall)).walker = some w ∧ w.state = 5 := by
    have h := answers_of_any 9 (sessionOver oneCall) [.start 0 "", .resume .stepIn, .resume .stepIn]
      (fun t => t.walker.any (·.state == 5)) (by decide +kernel)
    simpa [Option.any_eq_true] using h
  exact ⟨hload, hseal, hs, w, hw, hstate, callStack_inStep hload hseal hs _ hw⟩

/-- The call in state 2 goes on in the rule that it calls. -/
def strayReturn : List Wire.Word :=
  Wire.parserWords [[2, 0], [7, 0], [1, 0], [2, 1], [7, 1], [1, 1]] [0, 3]
    [Wire.eps 0 2, Wire.callOf 2 5 3 1, Wire.eps 3 4, Wire.eps 5 4] []

/-- Behind a call that goes on elsewhere, the parse is not in the rule of its innermost open
node. -/
theorem callStack_strays :
    loadWords strayReturn { optimize := false } = .ok (loaded strayReturn) ∧
    (loaded strayReturn).Partitioned ∧
    create (loaded strayReturn) letterSession.lexer default default true =
    .ok (sessionOver strayReturn) ∧
    ∃ w, ([.start 0 "", .resume .stepIn, .resume .stepOver].foldl answer
    (sessionOver strayReturn)).walker = some w ∧
      ¬ ([.start 0 "", .resume .stepIn, .resume .stepOver].foldl answer
      (sessionOver strayReturn)).InStep w := by
  refine ⟨loadWords_loaded (by decide +kernel), by decide +kernel,
    create_eq_ok.2 ⟨by decide +kernel, rfl, rfl⟩, ?_⟩
  have h :=
    answers_of_any 9 (sessionOver strayReturn) [.start 0 "", .resume .stepIn, .resume .stepOver]
    (fun t => t.walker.any fun w => !w.finished && (t.parser.ownerOf w.state == some 1) &&
      w.context.any fun id => (w.tree.ruleNode? id).toOption.any (·.any (·.rule == 0)))
      (by decide +kernel)
  generalize ([.start 0 "", .resume .stepIn, .resume .stepOver].foldl answer
    (sessionOver strayReturn)) = t at h ⊢
  simp only [Option.any_eq_true, Bool.and_eq_true, Bool.not_eq_true', beq_iff_eq] at h
  obtain ⟨w, hw, ⟨hf, howner⟩, id, hid, n, hn, r, hr, hrule⟩ := h
  refine ⟨w, hw, fun hstep => ?_⟩
  rw [InStep, hf, if_neg Bool.false_ne_true] at hstep
  obtain ⟨c, l, st, hopen, hst, hc, -⟩ := hstep
  rw [hid] at hopen
  cases hopen with
  | cons hnode _ =>
    rw [Tree.ruleNode?_of_getElem? hnode] at hn
    obtain rfl := Option.some.inj hn
    obtain rfl := Option.some.inj hr
    -- the node is of rule 0, and the state of rule 1
    rw [Network.ownerOf_eq hst, hc] at howner
    exact absurd (hrule.symm.trans (Option.some.inj howner)) (by decide)

end Session

end GrammarWalk
