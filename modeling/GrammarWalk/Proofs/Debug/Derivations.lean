import GrammarWalk.Proofs.Debug.CallStack
import GrammarWalk.Proofs.Debug.FinishedTree
import GrammarWalk.Proofs.Parse.Derivation

/-! Parses that nothing fails in. The tree that such a parse comes to is a derivation: what is below
each of its nodes is what one way through the node's rule takes. -/

namespace GrammarWalk

namespace Walker

variable {net : Network} {w w' : Walker}

/-- The invariant of a parse in a network without precedence rules. -/
def Derives (w : Walker) : Prop :=
  if w.finished then w.failures = [] → w.Derived [] else ∃ p s, w.Deriving p s

theorem derives_enterRoot (hw : net.Wired) (hseal : net.Sealed) (tokens : List Token) (rule : Nat)
    (w : Walker) (h : ({ net, tokens := .ofList tokens } : Walker).enterRoot rule = .ok w) :
    w.Derives := by
  obtain ⟨start, hstart, hstacks, hgrown, hfresh⟩ := grown_enterRoot hw hseal h
  rw [Derives, hfresh.finished, if_neg Bool.false_ne_true]
  refine ⟨_, _, hstacks, hgrown,
    fun _ => ⟨fun hx => (hfresh.alone _ hx).elim, fun _ => .root hstart ?_⟩⟩
  rw [hfresh.state]
  exact .here

theorem derives_move (hw : w.net.Wired) (hseal : w.net.Sealed) (hmarks : w.net.MarksPrecedence)
    (hplain : ∀ r, w.net.isPrecedenceRule r = false)
    (hedges : ∀ st ∈ w.net.states.toList, st.isRuleStop = false → st.edges ≠ [])
    (hf : w.finished = false) (h : w.Derives) (hmove : w.Move w') : w'.Derives := by
  rw [Derives, hf, if_neg Bool.false_ne_true] at h
  obtain ⟨p, s, h⟩ := h
  have running (hf' : w'.finished = w.finished) (hs : ∃ p s, w'.Deriving p s) : w'.Derives := by
    rw [Derives, hf', hf, if_neg Bool.false_ne_true]
    exact hs
  cases hmove with
  | visit hs hns hvisit =>
    have hedges := hedges _ (Array.mem_toList_iff.2 (Array.mem_of_getElem? hs)) hns
    exact running (continues_visit hvisit).finished
      (h.visit hs hw hseal hmarks hplain hns hedges hvisit)
  | fail hs hns hvisit hfail =>
    exact running (continues_fail hfail).finished (h.fail hw hvisit hfail)
  | leave hs hstop hroot hleave =>
    exact running (continues_visitStop hleave).finished (h.leave hs hseal hstop hroot hleave)
  | finish hs hstop hroot hfinish =>
    rw [Derives, finished_finishRoot hfinish, if_pos rfl]
    exact h.finish hs hstop hroot hfinish

end Walker

namespace Session

/--
When a parse over a loaded network with sealed rules, none of them a precedence rule, and no dead
ends has come to its end without a failure, then the children of each rule node in its tree trace a
path of raw edges from the start of the node's rule to a stop of the rule.
-/
theorem derivations_of_finished {words : List Wire.Word} {options : LoadOptions} {net : Network}
    {s : Session} {w : Walker} (hload : loadWords words options = .ok net) (hseal : net.Sealed)
    (hplain : ∀ r, net.isPrecedenceRule r = false)
    (hedges : ∀ st ∈ net.states.toList, st.isRuleStop = false → st.edges ≠ []) (hs : s.Begins net)
    (asks : List Ask) (hw : (asks.foldl answer s).walker = some w) (hf : w.finished = true)
    (hclean : w.failures = []) {x : Nat} {r : RuleNode} (hx : w.tree.nodes[x]? = some (.rule r)) :
    w.tree.Derives net w.tokens.get r := by
  have hwired := (loadWords_wired hload).1
  have hmarks := loadWords_marks hload
  have hkeep : w.net = net ∧ w.Derives := by
    refine answers_keep (P := fun w => w.net = net ∧ w.Derives)
      (fun tokens rule v hroot => ?_) ?_ hs asks hw
    · exact ⟨(Walker.continues_enterRoot hroot).net,
        Walker.derives_enterRoot hwired hseal tokens rule v hroot⟩
    · rintro v v' rfl hv ⟨-, hd⟩ hmove
      exact ⟨hmove.net, Walker.derives_move hwired hseal hmarks hplain hedges hv hd hmove⟩
  obtain ⟨rfl, hderives⟩ := hkeep
  rw [Walker.Derives, hf, if_pos rfl] at hderives
  exact (hderives hclean).settled ⟨⟨_, hx⟩, List.not_mem_nil⟩ hx

end Session

namespace Wire

/-- The rule that state 0 starts calls the rule that state 4 starts, which matches the symbol 1. -/
def letterCall : List Word :=
  parserWords [[2, 0], [1, 0], [1, 0], [7, 0], [2, 1], [1, 1], [1, 1], [7, 1]] [0, 4]
    [eps 0 1, callOf 1 2 4 1, eps 2 3, eps 4 5, atom 5 6 1, eps 6 7] []

/-- A rule with two stops, the first of which ends it. -/
def twoStops : List Word := parserWords [[2, 0], [7, 0], [7, 0]] [0] [eps 0 1] []

end Wire

namespace Session

open Wire

theorem derivations_of_finished_letterCall :
    loadWords letterCall { optimize := false } = .ok (loaded letterCall) ∧
      (loaded letterCall).Sealed ∧
    (∀ r, (loaded letterCall).isPrecedenceRule r = false) ∧
    (∀ st ∈ (loaded letterCall).states.toList, st.isRuleStop = false → st.edges ≠ []) ∧
    (sessionOver letterCall).Begins (loaded letterCall) ∧
    ∃ w r, ([.start 0 "a", .resume .normal].foldl answer (sessionOver letterCall)).walker = some w ∧
      w.finished = true ∧ w.failures = [] ∧ w.tree.nodes[1]? = some (.rule r) ∧
      w.tree.Derives (loaded letterCall) w.tokens.get r := by
  have hload : loadWords letterCall { optimize := false } = .ok (loaded letterCall) :=
    loadWords_loaded (by decide +kernel)
  have hseal : (loaded letterCall).Sealed := by decide +kernel
  have hplain : ∀ r, (loaded letterCall).isPrecedenceRule r = false :=
    Network.isPrecedenceRule_eq_false (by decide +kernel)
  have hedges : ∀ st ∈ (loaded letterCall).states.toList, st.isRuleStop = false →
    st.edges ≠ [] := by decide +kernel
  have hbegins := begins_sessionOver letterCall
  have h := answers_of_any 30 (sessionOver letterCall) [.start 0 "a", .resume .normal]
    (fun t => t.walker.any fun w => w.finished && w.failures.isEmpty &&
      (w.tree.ruleNode? 1).toOption.any (·.any fun _ => true)) (by decide +kernel)
  rw [Option.any_eq_true] at h
  simp only [Bool.and_eq_true, List.isEmpty_iff] at h
  obtain ⟨w, hw, ⟨hf, hclean⟩, hrule⟩ := h
  obtain ⟨r, hr, -⟩ := Tree.rule_of_any hrule
  exact ⟨hload, hseal, hplain, hedges, hbegins, w, r, hw, hf, hclean, hr,
    derivations_of_finished hload hseal hplain hedges hbegins _ hw hf hclean hr⟩

/-- A parse without failure ends with a node whose children trace no path to the stop of its
rule, although the words load, no rule is a precedence rule, and states and edges are sorted into
rules. -/
def EndsAstray (words : List Word) : Prop :=
  loadWords words { optimize := false } = .ok (loaded words) ∧ (loaded words).Partitioned ∧
    (∀ r, (loaded words).isPrecedenceRule r = false) ∧
    (∀ st ∈ (loaded words).states.toList, st.isRuleStop = false → st.edges ≠ []) ∧
    (sessionOver words).Begins (loaded words) ∧
    ∃ w r, ([.start 0 "", .resume .normal].foldl answer (sessionOver words)).walker = some w ∧
      w.finished = true ∧ w.failures = [] ∧ w.tree.nodes[0]? = some (.rule r) ∧
      ¬ ∃ start stop, (loaded words).ruleStarts[r.rule]? = some start ∧
      (loaded words).ruleStops[r.rule]? = some stop ∧
        w.tree.Traces (loaded words) w.tokens.get start r.children stop

/-- A path from the start of the rule that stays among some states does not come to a stop outside
of them. -/
theorem endsAstray_of_within {words : List Word} (within : List Nat)
    (hload : (loadWords words { optimize := false }).toOption.isSome = true)
    (hpart : (loaded words).Partitioned)
    (hplain : ∀ r < (loaded words).ruleStarts.size, (loaded words).isPrecedenceRule r = false)
    (hedges : ∀ st ∈ (loaded words).states.toList, st.isRuleStop = false → st.edges ≠ [])
    (hstart : (loaded words).ruleStarts[0]?.all (· ∈ within) = true)
    (hstop : (loaded words).ruleStops[0]?.all (· ∉ within) = true)
    (hclosed : ∀ s ∈ within, ∀ st ∈ (loaded words).states[s]?, st.isRuleStop = false →
      ∀ e ∈ st.edges, e.onward ∈ within)
    (hrun : ([.start 0 "", .resume .normal].foldlM (answerWithin 30) (sessionOver words)).any
      (fun t => t.walker.any fun w => w.finished && w.failures.isEmpty &&
      (w.tree.ruleNode? 0).toOption.any (·.any (·.rule == 0))) = true) : EndsAstray words := by
  refine ⟨loadWords_loaded hload, hpart, Network.isPrecedenceRule_eq_false hplain, hedges,
    begins_sessionOver words, ?_⟩
  have h := answers_of_any 30 (sessionOver words) [.start 0 "", .resume .normal] _ hrun
  rw [Option.any_eq_true] at h
  simp only [Bool.and_eq_true, List.isEmpty_iff] at h
  obtain ⟨w, hw, ⟨hf, hclean⟩, hrule⟩ := h
  obtain ⟨r, hr, hrule⟩ := Tree.rule_of_any hrule
  refine ⟨w, r, hw, hf, hclean, hr, ?_⟩
  rintro ⟨start, stop, hs, ht, htraces⟩
  rw [beq_iff_eq] at hrule
  rw [hrule] at hs ht
  rw [hs] at hstart
  rw [ht] at hstop
  exact of_decide_eq_true hstop (htraces.mem (of_decide_eq_true hstart) hclosed)

theorem derivations_astray : EndsAstray strayReturn ∧ EndsAstray twoStops := by
  refine ⟨endsAstray_of_within [0, 2, 5, 4] ?_ ?_ ?_ ?_ ?_ ?_ ?_ ?_,
    endsAstray_of_within [0, 1] ?_ ?_ ?_ ?_ ?_ ?_ ?_ ?_⟩
  all_goals decide +kernel

end Session

end GrammarWalk
