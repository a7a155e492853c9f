import GrammarWalk.Proofs.Debug.Invocations
import GrammarWalk.Proofs.Parse.Origin
import GrammarWalk.Proofs.Parse.Precedence
import GrammarWalk.Proofs.Parse.Recovery

/-! Where the precedence edges of a rule stand right behind its choices, as they do once left
recursion is eliminated, a parse never fails at one: a choice has looked at the level before, and on
the way nothing changes it. -/

namespace GrammarWalk

open Network

namespace Network

variable {net : Network} {P : Nat → Prop} {rule : Option Nat} {s : Nat}

/-- A parse comes to the state without taking an edge: a rule starts there, or a call goes on
there. -/
def Lands (net : Network) (s : Nat) : Prop :=
  s ∈ net.ruleStarts.toList ∨ ∃ st ∈ net.states.toList, ∃ e ∈ st.edges, ∃ k ∈ e.call?, k.follow = s

/-- Each edge into state `s` is a plain one out of state `p`. -/
def EnteredFrom (net : Network) (p s : Nat) : Prop :=
  ∀ q < net.states.size, ∀ st ∈ net.states[q]?, ∀ e ∈ st.edges, e.target = s → q = p ∧ e = .plain s

instance : DecidablePred net.Lands := fun _ => inferInstanceAs (Decidable (_ ∨ _))

instance (p s : Nat) : Decidable (net.EnteredFrom p s) :=
  inferInstanceAs (Decidable (∀ q < net.states.size, ∀ st ∈ net.states[q]?, ∀ e ∈ st.edges,
    e.target = s → q = p ∧ e = .plain s))

/-- The state is on a chain of plain edges behind a choice of the rule, whose states have no other
edge and no other way in. `P` holds of them. -/
inductive Behind (net : Network) (P : Nat → Prop) (rule : Option Nat) : Nat → Prop
  | choice {d s : Nat} {st : State} : net.states[d]? = some st → st.kind.decision?.isSome = true →
      1 < st.edges.length →
      st.rule = rule → .plain s ∈ st.edges → net.EnteredFrom d s → P s → Behind net P rule s
  | chain {q s : Nat} {st : State} : Behind net P rule q → net.states[q]? = some st →
      st.edges = [.plain s] →
      net.EnteredFrom q s → P s → Behind net P rule s

/-- Every precedence edge is the only one of its state, which is behind a choice of its rule. -/
def GuardsChoices (net : Network) (P : Nat → Prop) : Prop :=
  ∀ (s : Nat) (st : State) (t : Nat) (level : Int), net.states[s]? = some st →
    .precedence t level ∈ st.edges →
    st.edges = [.precedence t level] ∧ net.Behind P st.rule s

theorem Behind.holds (h : net.Behind P rule s) : P s := by cases h <;> assumption

theorem EnteredFrom.eq_of_mem {p q : Nat} {st : State} {e : Edge} (h : net.EnteredFrom p s)
    (hst : net.states[q]? = some st) (he : e ∈ st.edges) (htarget : e.target = s) :
    q = p ∧ e = .plain s :=
  h q (lt_size hst) st hst e he htarget

theorem guardsChoices_of_only
    (honly : ∀ q < net.states.size, ∀ st ∈ net.states[q]?, ∀ e ∈ st.edges, e.kind = .precedence →
      q = s ∧ st.edges = [e] ∧ st.rule = rule) (hbehind : net.Behind P rule s) :
    net.GuardsChoices P := by
  intro q st t level hst he
  obtain ⟨rfl, hedges, rfl⟩ := honly q (lt_size hst) st hst _ he rfl
  exact ⟨hedges, hbehind⟩

theorem lands_of_start {r : Nat} (h : net.ruleStarts[r]? = some s) : net.Lands s :=
  .inl (Array.mem_toList_iff.2 (Array.mem_of_getElem? h))

theorem lands_of_call {q : Nat} {st : State} {k : Call} (hst : net.states[q]? = some st)
    (hk : .call k ∈ st.edges) : net.Lands k.follow :=
  .inr ⟨st, Array.mem_toList_iff.2 (Array.mem_of_getElem? hst), _, hk, k, rfl, rfl⟩

end Network

namespace Walker

variable {net : Network} {w w' : Walker} {st : State} {e : Edge} {f : Failure}

/-- A parse that has come near a precedence edge by a choice is at a level no higher than that of
the edge. -/
def Cleared (w : Walker) : Prop :=
  ∀ rule level, w.net.Behind (fun s => ¬ w.net.Lands s) rule w.state →
    w.net.Approaches level w.state → w.level ≤ level

theorem levels_wrap {start : Nat} (h : w.wrap start = .ok w') : w'.levels = w.levels := by
  simp only [wrap, bind_eq_ok] at h
  obtain ⟨node, -, h⟩ := h
  split at h
  · simp only [bind_eq_ok, pure_eq_ok] at h
    obtain ⟨_, -, _, -, rfl⟩ := h
    rfl
  · exact pure_eq_ok.1 h ▸ rfl

theorem levels_takeEdge_plain {t : Nat} (h : w.takeEdge st (.plain t) = .ok (.ok w')) :
    w'.levels = w.levels := by
  simp only [takeEdge, Edge.plain] at h
  split at h
  · rw [bind_eq_ok] at h
    obtain ⟨_, -, h⟩ := h
    split at h
    · exact Except.ok.inj (pure_eq_ok.1 h) ▸ rfl
    · simp only [bind_eq_ok, pure_eq_ok, Except.ok.injEq] at h
      obtain ⟨_, -, v, hv, rfl⟩ := h
      exact levels_wrap hv
  · exact Except.ok.inj (pure_eq_ok.1 h) ▸ rfl

/-- An edge out of state `st` leads behind a choice only by that choice or along the chain, at a
level that allows the precedence edge ahead. -/
theorem Cleared.takeEdge {v : Walker} {number : Nat} (hw : w.Cleared) (hf : w.net.FollowsApproaches)
    (hst : w.net.states[w.state]? = some st) (hns : st.isRuleStop = false)
    (hchoose : w.chooseEdge st = .ok (.ok number)) (he : st.edges[number - 1]? = some e)
    (htaken : w.takeEdge st e = .ok (.ok v)) : Cleared { v with state := e.target } := by
  have hnet : v.net = w.net := (smooth_takeEdge htaken).net
  have hlevel {s : Nat} (heq : e = .plain s) : v.level = w.level := by
    subst heq
    rw [level, level, levels_takeEdge_plain htaken]
  intro rule level hbehind happ
  rw [hnet] at hbehind happ
  have hmem := List.mem_of_getElem? he
  cases hbehind with
  | @choice d s dst hd hdecision hseveral hrule hplain hfrom hapart =>
    obtain ⟨rfl, heq⟩ := hfrom.eq_of_mem hst hmem rfl
    obtain rfl := Option.some.inj (hst.symm.trans hd)
    rw [chooseEdge, if_pos hseveral, bind_eq_ok] at hchoose
    obtain ⟨follow, -, hchoose⟩ := hchoose
    have hle :=
      Choice.precedence_le_of_choose hf hst hns (he.trans (congrArg some heq)) happ hchoose
    exact (hlevel heq).le.trans hle
  | @chain q s qst hq hqst hedges hfrom hapart =>
    obtain ⟨rfl, heq⟩ := hfrom.eq_of_mem hst hmem rfl
    obtain rfl := Option.some.inj (hst.symm.trans hqst)
    exact (hlevel heq).le.trans (hw rule level hq (.on hst hns hedges happ))

theorem cleared_of_stop (hst : w.net.states[w.state]? = some st) (hstop : st.isRuleStop = true) :
    w.Cleared := by
  intro rule level _ happ
  have hns : st.isRuleStop = false := by
    cases happ with
    | here hs hns => exact Option.some.inj (hst.symm.trans hs) ▸ hns
    | on hs hns => exact Option.some.inj (hst.symm.trans hs) ▸ hns
  rw [hstop] at hns
  cases hns

theorem cleared_of_ruleStop (hw : w.net.Wired) (hstop : w.state ∈ w.net.ruleStops) : w.Cleared := by
  obtain ⟨rule, hrule⟩ := Array.getElem?_of_mem hstop
  obtain ⟨st, hst, hkind, -⟩ := hw.stop hrule
  exact cleared_of_stop hst hkind

theorem cleared_of_lands (h : w.net.Lands w.state) : w.Cleared :=
  fun _ _ hbehind _ => (hbehind.holds h).elim

theorem Cleared.visit (h : w.Cleared) (hw : w.net.Wired) (hf : w.net.FollowsApproaches)
    (hst : w.net.states[w.state]? = some st) (hns : st.isRuleStop = false)
    (hvisit : w.visit = .ok (.ok w')) : w'.Cleared := by
  obtain ⟨st', number, hst', hchoose, hcases⟩ := visit_eq_ok hvisit
  obtain rfl := Option.some.inj (hst.symm.trans hst')
  obtain ⟨e, v, he, htaken, rfl⟩ | ⟨-, ⟨-, rfl⟩ | ⟨rule, stop, -, hstop, rfl⟩⟩ := hcases
  · exact h.takeEdge hf hst hns hchoose he htaken
  · exact h
  · exact cleared_of_ruleStop hw (Array.mem_of_getElem? hstop)

theorem cleared_of_fail (hw : w.net.Wired) (hfail : w.fail f = .ok w') : w'.Cleared := by
  obtain ⟨v, hv⟩ := fail_recovers hfail
  have hnet := (continues_fail hfail).net
  refine cleared_of_ruleStop (hnet ▸ hw) ?_
  rw [hnet, hv.sought.2]
  exact hv.isStop

/-- A return comes to where a call goes on, or stays at the start or the stop of a rule. -/
theorem Recalls.cleared_visitStop (h : w.Recalls w.net.Invokes)
    (hst : w.net.states[w.state]? = some st) (hstop : st.isRuleStop = true)
    (hleave : w.visitStop = .ok w') : w'.Cleared := by
  have hnet := (continues_visitStop hleave).net
  obtain ⟨-, s, caller, hs, hcaller, hstate⟩ := h.visitStop hleave
  cases hfollow : caller.edges.findSome? fun e => e.call?.map (·.follow) with
  | some follow =>
    obtain ⟨e, he, hcall⟩ := List.exists_of_findSome?_eq_some hfollow
    obtain ⟨k, hk, rfl⟩ := Option.map_eq_some_iff.1 hcall
    obtain rfl := Edge.call?_eq_some.1 hk
    refine cleared_of_lands ?_
    rw [hnet, hstate, hfollow]
    exact lands_of_call hcaller he
  | none =>
    rw [hfollow] at hstate
    have hstate : w'.state = s := hstate
    obtain rfl | ⟨qst, k, hqst, hk⟩ | ⟨r, hr⟩ := hs
    · exact cleared_of_stop (hnet ▸ hstate ▸ hst) hstop
    · obtain rfl := Option.some.inj (hcaller.symm.trans hqst)
      have := List.findSome?_eq_none_iff.1 hfollow _ hk
      cases this
    · refine cleared_of_lands ?_
      rw [hnet, hstate]
      exact lands_of_start hr

/-- Behind a choice of the rule the level allows the edge, so a parse does not fail at it. -/
theorem Cleared.not_predicate (h : w.Cleared)
    (hshape : w.net.GuardsChoices fun s => ¬ w.net.Lands s) (hst : w.net.states[w.state]? = some st)
    (hns : st.isRuleStop = false) (hvisit : w.visit = .ok (.error f)) (s r place : Nat)
    (text : String) : f ≠ .predicate s r place text := by
  obtain ⟨st', hst', hfails⟩ := visit_fails hvisit
  obtain rfl := Option.some.inj (hst.symm.trans hst')
  rintro rfl
  cases hfails with
  | level he hlow =>
    obtain ⟨hedges, hbehind⟩ := hshape _ _ _ _ hst he
    exact absurd (h _ _ hbehind (.here hst hns hedges)) (Int.not_le.2 hlow)

/-- A parse that agrees with its choices about levels: it has not failed at a precedence edge, and
will not. -/
structure Agrees (w : Walker) : Prop where
  recalls : w.Recalls w.net.Invokes
  cleared : w.finished = false → w.Cleared
  passed : ∀ f ∈ w.failures, ∀ s r place text, f ≠ .predicate s r place text

theorem agrees_enterRoot {tokens : Tokens} {rule : Nat}
    (h : ({ net, tokens } : Walker).enterRoot rule = .ok w) : w.Agrees := by
  refine ⟨recalls_start.enterRoot h, fun _ => ?_, ?_⟩
  · obtain ⟨start, tree, hstart, -, -, rfl⟩ := enterRoot_eq_ok h
    exact cleared_of_lands (lands_of_start hstart)
  · rw [failures_enterRoot h]
    exact nofun

theorem Agrees.move (h : w.Agrees) (hw : w.net.Wired) (hf : w.net.FollowsApproaches)
    (hshape : w.net.GuardsChoices fun s => ¬ w.net.Lands s) (hrun : w.finished = false)
    (hmove : w.Move w') : w'.Agrees := by
  have hcleared := h.cleared hrun
  refine ⟨hmove.net ▸ h.recalls.move (fun _ hs => hs) hmove, fun hrun' => ?_, ?_⟩
  · cases hmove with
    | visit hst hns hvisit => exact hcleared.visit hw hf hst hns hvisit
    | fail _ _ _ hfail => exact cleared_of_fail hw hfail
    | leave hst hstop _ hleave => exact h.recalls.cleared_visitStop hst hstop hleave
    | finish _ _ _ hfinish =>
      exact absurd (hrun'.symm.trans (finished_finishRoot hfinish)) Bool.noConfusion
  · intro g hg
    obtain heq | ⟨st, f, hst, hns, hvisit, heq⟩ := hmove.failures
    · exact h.passed g (heq ▸ hg)
    · rw [heq, List.mem_append, List.mem_singleton] at hg
      obtain hg | rfl := hg
      · exact h.passed g hg
      · exact hcleared.not_predicate hshape hst hns hvisit

/--
A choice and a parse agree on precedence. Over a loaded network a choice answers no alternative that
can but go on to a precedence edge of a level below the current one. And where every precedence edge
stands behind a choice of its rule, on a chain to which a parse comes by its edges only, no parse
ever fails at such an edge.
-/
theorem precedence_agrees {words : List Wire.Word} {options : LoadOptions}
    (hload : loadWords words options = .ok net)
    (hshape : net.GuardsChoices fun s => ¬ net.Lands s) :
    (∀ (c : Choice.Setting) (decision : Nat) (st : State) (a t : Nat) (level : Int), c.net = net →
      net.states[decision]? = some st → st.kind.decision?.isSome = true →
      Choice.choose c decision = .ok (.ok a) →
      st.edges[a - 1]? = some (.plain t) → net.Approaches level t → c.precedence ≤ level) ∧
    ∀ rule n tokens w, parseFor net rule n tokens = .ok w →
      ∀ f ∈ w.failures, ∀ s r place text, f ≠ .predicate s r place text := by
  have hfollows := loadWords_followsApproaches hload
  constructor
  · rintro c decision st a t level rfl hst hdecision hchoose hedge happ
    exact Choice.precedence_le_of_choose hfollows hst
      (isRuleStop_of_decision hdecision) hedge happ hchoose
  · intro rule n tokens w h
    have hagrees := parseFor_induction (P := fun w => w.net = net ∧ w.Agrees)
      (fun w hw => ⟨(continues_enterRoot hw).net, agrees_enterRoot hw⟩)
        (fun w w' hw hrun hmove => ?_) h
    · exact hagrees.2.passed
    · obtain ⟨rfl, hw⟩ := hw
      exact ⟨hmove.net, hw.move (loadWords_wired hload).1 hfollows hshape hrun hmove⟩

end Walker

namespace Wire

/-- A precedence rule that is nothing, or the symbol 1, itself at level 7, an edge of level 3 where
that call goes on, and then the symbol 2 and what the rule is. -/
def afterCall : List Word :=
  markedWords [0] [[2, 0], [7, 0], [11, 0], [1, 0], [1, 0], [1, 0], [1, 0]] [0]
    [eps 0 2, eps 2 3, eps 2 1, atom 3 4 1, callAt 4 5 0 0 7, guardAt 5 6 3, atom 6 2 2] [2]

end Wire

namespace Walker

open Wire

/-- The edge of level 1 of `sumWords` is chosen at level 1, and not at level 2, at which the rule
calls itself. -/
theorem precedence_agrees_sumWords :
    loadWords sumWords { optimize := false } = .ok (loaded sumWords) ∧
    (loaded sumWords).GuardsChoices (fun s => ¬ (loaded sumWords).Lands s) ∧
    (∃ c : Choice.Setting, c.net = loaded sumWords ∧ Choice.choose c 4 = .ok (.ok 1) ∧
      c.precedence ≤ 1) ∧
    ∃ w,
      parseFor (loaded sumWords) 1 38 [tokenOf 1, tokenOf 2, tokenOf 1, tokenOf 2, tokenOf 1] =
        .ok w ∧
      w.finished = true ∧ ∀ f ∈ w.failures, ∀ s r place text, f ≠ .predicate s r place text := by
  have hload : loadWords sumWords { optimize := false } = .ok (loaded sumWords) :=
    loadWords_loaded (by decide +kernel)
  obtain ⟨entry, hentry, hdecision, hseveral, hrule, hplain, hfrom, hapart⟩ :
      ∃ st ∈ (loaded sumWords).states[4]?,
      st.kind.decision?.isSome = true ∧ 1 < st.edges.length ∧ st.rule = some 0 ∧
      st.edges[0]? = some (.plain 5) ∧
      (loaded sumWords).EnteredFrom 4 5 ∧ ¬ (loaded sumWords).Lands 5 := by decide +kernel
  obtain ⟨block, hblock, hns, hedges, hnext, hlast⟩ : ∃ st ∈ (loaded sumWords).states[5]?,
      st.isRuleStop = false ∧
      st.edges = [.plain 9] ∧ (loaded sumWords).EnteredFrom 5 9 ∧ ¬ (loaded sumWords).Lands 9 := by
        decide +kernel
  obtain ⟨guard, hguard, hgoing, hlevel⟩ : ∃ st ∈ (loaded sumWords).states[9]?,
      st.isRuleStop = false ∧
      st.edges = [.precedence 10 1] := by decide +kernel
  have hbehind : (loaded sumWords).Behind (fun s => ¬ (loaded sumWords).Lands s) (some 0) 9 :=
    .chain (.choice hentry hdecision hseveral hrule (List.mem_of_getElem? hplain) hfrom hapart)
      hblock hedges hnext hlast
  have hshape := guardsChoices_of_only (s := 9) (by decide +kernel) hbehind
  obtain ⟨hchoice, hruns⟩ := precedence_agrees hload hshape
  have hchoose : Choice.choose (.mk (loaded sumWords) (.ofList [tokenOf 2, tokenOf 1]) #[16] 1) 4 =
      .ok (.ok 1) := by
    decide +kernel
  obtain ⟨w, hw, hfinished⟩ := ok_of_any
    (x := parseFor (loaded sumWords) 1 38 [tokenOf 1, tokenOf 2, tokenOf 1, tokenOf 2, tokenOf 1])
    (p := fun w => w.finished) (by decide +kernel)
  refine ⟨hload, hshape, ⟨_, rfl, hchoose, ?_⟩, w, hw, hfinished, hruns _ _ _ w hw⟩
  exact hchoice _ 4 entry 1 5 1 rfl hentry hdecision hchoose hplain
    (.on hblock hns hedges (.here hguard hgoing hlevel))

/-- The chain may go through the stop of the rule, behind which the call goes on. A choice in the
second call leaves the rule there, and looks at no level then; the parse is back at the level 7 of
the first call, and the edge of level 3 fails. -/
theorem predicate_after_call : loadWords afterCall { optimize := false } = .ok (loaded afterCall) ∧
    (loaded afterCall).kind = .parser ∧ (loaded afterCall).GuardsChoices (fun _ => True) ∧
    ∃ w, parseFor (loaded afterCall) 0 12 [tokenOf 1, tokenOf 1, tokenOf 2, tokenOf 2] = .ok w ∧
      .predicate 5 0 2 "precpred(_ctx, 3)" ∈ w.failures := by
  obtain ⟨choice, hchoice, hdecision, hseveral, hrule, hplain, hfrom⟩ :
      ∃ st ∈ (loaded afterCall).states[2]?,
      st.kind.decision?.isSome = true ∧ 1 < st.edges.length ∧ st.rule = some 0 ∧
      .plain 1 ∈ st.edges ∧
      (loaded afterCall).EnteredFrom 2 1 := by decide +kernel
  obtain ⟨stop, hstop, hreturn, hnext⟩ : ∃ st ∈ (loaded afterCall).states[1]?,
      st.edges = [.plain 5] ∧
      (loaded afterCall).EnteredFrom 1 5 := by decide +kernel
  have hbehind : (loaded afterCall).Behind (fun _ => True) (some 0) 5 :=
    .chain
      (.choice hchoice hdecision hseveral hrule hplain hfrom trivial) hstop hreturn hnext trivial
  obtain ⟨w, hw, hfails⟩ := ok_of_any
    (x := parseFor (loaded afterCall) 0 12 [tokenOf 1, tokenOf 1, tokenOf 2, tokenOf 2])
    (p := fun w => decide (.predicate 5 0 2 "precpred(_ctx, 3)" ∈ w.failures)) (by decide +kernel)
  exact ⟨loadWords_loaded (by decide +kernel), by decide +kernel,
    guardsChoices_of_only (s := 5) (by decide +kernel) hbehind,
    w, hw, of_decide_eq_true hfails⟩

end Walker

namespace Choice

/-- At a decision of a loaded network the search keeps something after any symbols: what waits at
the ends of the paths that take no precedence edge of too low a level in the decision's own
invocation, as long as they have made no tail call. -/
theorem kept_iff_journey {words : List Wire.Word} {options : LoadOptions}
    {decision : Nat} {st : State}
    (hload : loadWords words options = .ok net) (hst : net.states[decision]? = some st)
    (hdecision : st.kind.decision?.isSome = true) (tokens : Tokens) {follow : Array Nat}
    (hfollow : ∀ q ∈ follow, q < net.states.size) (precedence : Int) :
    let s := Setting.mk net tokens follow precedence
    (∀ word, ∃ trails, Kept s decision word trails) ∧ ∀ word trails, Kept s decision word trails →
      ∀ x, x ∈ trails ↔
      ∃ r, Journey s (Guarded s) decision word r ∧ r.trail s = x ∧ Waits s x := by
  intro s
  have hrange : s.InRange := ⟨loadWords_inRange hload, hfollow⟩
  have hns := isRuleStop_of_decision hdecision
  exact ⟨exists_kept hrange hst hns, fun word trails hk => (mem_kept_iff hrange hst hns hk).2⟩

end Choice

namespace Wire

/-- Rule 0 calls the precedence rule 1 at level 5, which has two alternatives. Both call rule 2,
which does no more than call rule 3, and end in the symbol 2; but in the first there is an edge of
level 1 before that symbol. -/
def levelAfterTail : List Word :=
  markedWords [2] [[2, 0], [7, 0], [2, 1], [7, 1], [2, 2], [7, 2], [1, 0], [1, 0], [3, 1, 9],
    [8, 1], [1, 1], [1, 1], [1, 1], [1, 1], [1, 1], [1, 2], [1, 2], [2, 3], [7, 3],
    [1, 3]] [0, 2, 4, 17]
    [eps 0 6, callAt 6 7 2 1 5, eps 7 1, eps 2 8, eps 8 10, eps 8 13, callOf 10 11 4 2,
      guardAt 11 12 1, atom 12 9 2, callOf 13 14 4 2, atom 14 9 2, eps 9 3, eps 4 15,
      callOf 15 16 17 3, eps 16 5, eps 17 19, atom 19 18 1] [8]

end Wire

namespace Choice

open Wire

/-- In the first alternative the edge of level 1 is kept, at level 5: it is reached in the
decision's own invocation, the calls made before having been returned from, but one of them was a
tail call. So this alternative is chosen, and fails. -/
theorem kept_below_level :
    let s := Setting.mk (loaded levelAfterTail) (.ofList [tokenOf 1, tokenOf 2]) #[7] 5
    loadWords levelAfterTail { optimize := false } = .ok s.net ∧ choose s 8 = .ok (.ok 1) ∧
    ∃ trails r, Kept s 8 [1] trails ∧ Journey s (Guarded s) 8 [1] r ∧ r.AtHome s ∧
      r.offers s (.precedence 12 1) = true ∧ (r.moveTo 12).trail s ∈ trails := by
  intro s
  obtain ⟨front, hstart, hstep⟩ :=
    ok_of_any (x := start s 8) (p := fun trails => (step s trails 1).toOption.any fun next =>
      decide (({ state := 12, alternative := 1, outer := 1, leftOrigin := true } : Trail) ∈ next))
      (by decide +kernel)
  obtain ⟨trails, hnext, hmem⟩ := ok_of_any hstep
  -- the calls of the rules 2 and 3 on the way
  let pushed : Call := { start := 4, rule := 2, precedence := 0, follow := 11 }
  let tail : Call :=
    { start := 17, rule := 3, precedence := 0, follow := 16, tail := true, optimizedTail := true }
  let before : Route := ((((Route.origin s 8 0).moveTo 10).enter pushed).moveTo 15).enter tail
  have hbefore : Journey s (Guarded s) 8 [] (before.moveTo 19) := by
    obtain ⟨st, hst, hlt⟩ : ∃ st ∈ s.net.states[8]?, 0 < st.edges.length := by decide +kernel
    refine .start hst hlt ?_
    refine ((((Relation.ReflTransGen.single (.plain ?_)).tail (.call ?_ ?_)).tail (.plain ?_)).tail
      (.call ?_ ?_)).tail (.plain ?_)
    all_goals decide +kernel
  obtain ⟨st, hst, hns, he⟩ :=
    takes_of_offers (s := s) (r := before.moveTo 19) (e := .atom 18 1) (by decide +kernel)
  have hread : Journey s (Guarded s) 8 [1] (((before.moveTo 19).moveTo 18).back pushed [] rfl) :=
    .read hbefore (.inr ⟨st, _, hst, hns, he, by decide, rfl⟩)
      (.single (.return (by decide +kernel) rfl))
  exact ⟨loadWords_loaded (by decide +kernel), by decide +kernel, trails, _,
    .step (.start hstart) hnext, hread,
    ⟨rfl, Nat.le_refl _⟩, by decide +kernel, of_decide_eq_true hmem⟩

end Choice

end GrammarWalk
