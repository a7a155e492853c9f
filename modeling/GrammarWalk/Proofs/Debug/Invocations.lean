import GrammarWalk.Proofs.Debug.Mismatches
import GrammarWalk.Proofs.Load.Conservative
import GrammarWalk.Proofs.Load.Marks
import GrammarWalk.Proofs.Parse.Contexts

/-! The invocations that a parse is inside of, each with what was known when its rule was entered. A
parse keeps a context, a caller and a level for those of precedence rules only, on two stacks. They
are pushed when such a rule is entered and popped when it is left, so over enclosed rules they are
those of the invocations that are still open. -/

namespace GrammarWalk

/-- A rule as it was entered: the node that was parsed then, the state it was called from and the
level it was called with. -/
structure Invocation where
  context : Option Nat
  invoking : Option Nat
  rule : Nat
  level : Int
deriving DecidableEq, Repr

namespace Invocation

def ofCall (context : Option Nat) (s : Nat) (k : Call) : Invocation :=
  { context, invoking := some s, rule := k.rule, level := k.precedence }

/-- What a parse keeps of an invocation of a precedence rule, besides its level. -/
def recursion (i : Invocation) : Recursion := { context := i.context, invoking := i.invoking }

/-- The invocations of precedence rules. -/
def recursive (net : Network) (invs : List Invocation) : List Invocation :=
  invs.filter fun i => net.isPrecedenceRule i.rule

variable {net : Network} {i : Invocation} {invs : List Invocation}

theorem recursive_cons_of_pos (h : net.isPrecedenceRule i.rule = true) :
    recursive net (i :: invs) = i :: recursive net invs := List.filter_cons_of_pos h

theorem recursive_cons_of_neg (h : net.isPrecedenceRule i.rule = false) :
    recursive net (i :: invs) = recursive net invs := List.filter_cons_of_neg (by simpa using h)

end Invocation

open Invocation

namespace Walker

variable {net : Network} {w w' v : Walker} {i : Invocation} {invs : List Invocation} {c : Context}
  {l : List Context}
  {st : State} {r : RuleNode} {e : Edge} {f : Failure} {target : Nat} {level : Int}

/-- A parse of the network has come to `w`, and these are the invocations that it is inside of,
innermost first. -/
inductive Opened (net : Network) : Walker → List Invocation → Prop
  | enter {tokens : List Token} {rule : Nat} {w : Walker} :
      ({ net, tokens := .ofList tokens } : Walker).enterRoot rule = .ok w →
      Opened net w [{ context := none, invoking := none, rule, level := 0 }]
  | visit {w w' : Walker} {invs : List Invocation} {st : State} : Opened net w invs →
      w.finished = false →
      w.net.states[w.state]? = some st → st.isRuleStop = false → w.visit = .ok (.ok w') →
      Opened net w' ((w.callTaken?.map (ofCall w.context w.state)).toList ++ invs)
  | fail {w w' : Walker} {invs : List Invocation} {f : Failure} : Opened net w invs →
      w.finished = false →
      w.visit = .ok (.error f) → w.fail f = .ok w' → Opened net w' invs
  | leave {w w' : Walker} {invs : List Invocation} {st : State} : Opened net w invs →
      w.finished = false →
      w.net.states[w.state]? = some st → st.isRuleStop = true → w.atRoot = .ok false →
      w.visitStop = .ok w' →
      Opened net w' invs.tail
  | finish {w w' : Walker} {invs : List Invocation} : Opened net w invs → w.finished = false →
      w.atRoot = .ok true → w.finishRoot = .ok w' → Opened net w' invs.tail

/-- The two stacks of the parse are those of the precedence rules among the invocations. -/
structure Accounts (w : Walker) (invs : List Invocation) : Prop where
  recursions : w.recursions = (recursive w.net invs).map recursion
  levels : w.levels = (recursive w.net invs).map (·.level) ++ [0]

/-- The invocations are those of the open nodes. -/
def Matches (invs : List Invocation) (cs : List Context) : Prop :=
  invs.map (fun i => (i.rule, i.invoking)) = cs.map fun c => (c.rule, c.invoking)

theorem Matches.exists_cons (h : Matches invs (c :: l)) :
    ∃ i rest, invs = i :: rest ∧ i.rule = c.rule ∧ i.invoking = c.invoking ∧ Matches rest l := by
  obtain _ | ⟨i, rest⟩ := invs
  · cases h
  · obtain ⟨hhead, hrest⟩ := List.cons.inj h
    obtain ⟨hrule, hinvoking⟩ := Prod.mk.inj hhead
    exact ⟨i, rest, rfl, hrule, hinvoking, hrest⟩

theorem Matches.step {s : Nat} {taken : Option Call} {c' : Context} {l' : List Context}
    {context : Option Nat} (h : Matches invs (c :: l)) (hstep : Context.Step s c l taken c' l') :
    Matches ((taken.map (ofCall context s)).toList ++ invs) (c' :: l') := by
  cases hstep with
  | within hrule hinvoking =>
    refine h.trans ?_
    rw [List.map_cons, List.map_cons, hrule, hinvoking]
  | called hrule hinvoking =>
    exact congrArg₂ _ (Prod.ext hrule.symm hinvoking.symm) h

theorem Accounts.took (h : w.Accounts invs) (hctx : w.context = some c.node)
    (htook : w.Took st c.node r e v) :
    v.Accounts ((e.call?.map (ofCall w.context w.state)).toList ++ invs) := by
  cases htook with
  | silent _ hcall =>
    rw [hcall]
    exact h
  | wrap => exact ⟨h.recursions, h.levels⟩
  | @token e v hfits hreads =>
    have hcall : e.call? = none := by
      cases e <;> first | rfl | cases hfits
    obtain ⟨tree, -, rfl⟩ := hreads
    rw [hcall]
    exact ⟨h.recursions, h.levels⟩
  | @call k tree hp _ =>
    have hrest : recursive w.net (ofCall w.context w.state k :: invs) = recursive w.net invs :=
      recursive_cons_of_neg hp
    exact ⟨h.recursions.trans (by rw [← hrest]; rfl), h.levels.trans (by rw [← hrest]; rfl)⟩
  | @recurse k tree hp _ _ =>
    have hmore : recursive w.net (ofCall w.context w.state k :: invs) =
        ofCall w.context w.state k :: recursive w.net invs := recursive_cons_of_pos hp
    refine ⟨?_, ?_⟩
    · show _ :: w.recursions = (recursive w.net (ofCall w.context w.state k :: invs)).map recursion
      rw [hmore, List.map_cons, h.recursions, ← hctx]
      rfl
    · show k.precedence :: w.levels = (recursive w.net (ofCall w.context w.state k :: invs)).map
        (·.level) ++ [0]
      rw [hmore, List.map_cons, h.levels]
      rfl

theorem Accounts.visit (h : w.Accounts invs) (ha : w.Aligned c l)
    (hst : w.net.states[w.state]? = some st) (hvisit : w.visit = .ok (.ok w')) :
    w'.Accounts ((w.callTaken?.map (ofCall w.context w.state)).toList ++ invs) := by
  obtain ⟨r, hin⟩ := ha.stands
  obtain ⟨st', number, hst', hchoose, hcases⟩ :=
    visit_cases hin.toIn (fun p hp => (hin.below p hp).1) hvisit
  obtain rfl := Option.some.inj (hst.symm.trans hst')
  rw [callTaken?_eq hst hchoose]
  obtain ⟨e, v, he, htook, rfl⟩ | ⟨hnone, ⟨-, rfl⟩ | ⟨rule, stop, -, -, rfl⟩⟩ := hcases
  · have hv := h.took hin.context htook
    rw [he]
    exact ⟨hv.recursions, hv.levels⟩
  · rw [hnone]
    exact h
  · rw [hnone]
    exact ⟨h.recursions, h.levels⟩

theorem Accounts.fail (h : w.Accounts invs) (ha : w.Aligned c l) (hfail : w.fail f = .ok w') :
    w'.Accounts invs := by
  obtain ⟨r, hin⟩ := ha.stands
  refine fail_induction (P := fun v => v.Accounts invs) hin.toIn hfail
    (fun _ _ _ _ _ _ _ => ⟨h.recursions, h.levels⟩)
    (fun v _ _ hv => ⟨hv.recursions, hv.levels⟩) fun v v' hv hskip => ?_
  obtain ⟨tree, rfl⟩ := skipToken_eq_ok hskip
  exact ⟨hv.recursions, hv.levels⟩

/-- Where the innermost rule is closed, its invocation is popped from both stacks if they have
it. -/
theorem Accounts.closes (h : w.Accounts (i :: invs)) (hrule : i.rule = c.rule)
    (hcloses : w.Closes c.node r (w.net.isPrecedenceRule c.rule) v) : v.Accounts invs := by
  obtain ⟨hrec, hlevels⟩ := h
  rw [hcloses.rest, ← hrule]
  cases hp : w.net.isPrecedenceRule i.rule with
  | true =>
    rw [recursive_cons_of_pos hp] at hrec hlevels
    exact ⟨congrArg List.tail hrec, congrArg List.tail hlevels⟩
  | false =>
    rw [recursive_cons_of_neg hp] at hrec hlevels
    exact ⟨hrec, hlevels⟩

/-- The parse is inside of the invocations: they are those of its open nodes, and its stacks are
theirs. -/
structure Within (w : Walker) (invs : List Invocation) : Prop where
  running : w.finished = false → ∃ c l, w.Aligned c l ∧ Matches invs (c :: l)
  done : w.finished = true → w.context = none ∧ invs = []
  accounts : w.Accounts invs

theorem Opened.within (hw : net.Wired) (henc : net.Enclosed) (hmarks : net.MarksPrecedence)
    (h : Opened net w invs) : w.net = net ∧ w.Within invs := by
  induction h with
  | @enter tokens rule w hroot =>
    have hcont := continues_enterRoot hroot
    obtain ⟨ha, -⟩ := aligned_enterRoot hw henc hroot
    refine ⟨hcont.net, fun _ => ⟨_, _, ha, rfl⟩,
      fun hf => absurd (hf.symm.trans hcont.finished) Bool.noConfusion, ?_⟩
    obtain ⟨start, tree, -, -, -, rfl⟩ := enterRoot_eq_ok hroot
    constructor
    all_goals
      cases hp : net.isPrecedenceRule rule <;> simp [hp, recursive, recursion]
  | visit _ hf hst hns hvisit ih =>
    obtain ⟨rfl, hw'⟩ := ih
    have hcont := continues_visit hvisit
    obtain ⟨c, l, ha, hmatches⟩ := hw'.running hf
    obtain ⟨c', l', ha', -, hstep⟩ := ha.visit hw henc hmarks hst hns hvisit
    exact ⟨hcont.net, fun _ => ⟨c', l', ha', hmatches.step hstep⟩, fun hf' => absurd
      (hf'.symm.trans (hcont.finished.trans hf)) Bool.noConfusion, hw'.accounts.visit ha hst hvisit⟩
  | fail _ hf hvisit hfail ih =>
    obtain ⟨rfl, hw'⟩ := ih
    have hcont := continues_fail hfail
    obtain ⟨c, l, ha, hmatches⟩ := hw'.running hf
    exact ⟨hcont.net, fun _ => ⟨c, l, (ha.fail hw hvisit hfail).1, hmatches⟩, fun hf' => absurd
      (hf'.symm.trans (hcont.finished.trans hf)) Bool.noConfusion, hw'.accounts.fail ha hfail⟩
  | leave _ hf hst _ hroot hleave ih =>
    obtain ⟨rfl, hw'⟩ := ih
    have hcont := continues_visitStop hleave
    obtain ⟨c, l, ha, hmatches⟩ := hw'.running hf
    obtain ⟨d, l', rfl, ha', -⟩ := ha.visitStop henc hst hroot hleave
    obtain ⟨i, rest, rfl, hrule, -, hrest⟩ := hmatches.exists_cons
    obtain ⟨r, v, caller, -, hcloses, -, rfl⟩ := ha.leave_closes hst hleave
    have hv := hw'.accounts.closes hrule hcloses
    exact ⟨hcont.net, fun _ => ⟨d, l', ha', hrest⟩, fun hf' =>
      absurd (hf'.symm.trans (hcont.finished.trans hf)) Bool.noConfusion, hv.recursions, hv.levels⟩
  | finish _ hf hroot hfinish ih =>
    obtain ⟨rfl, hw'⟩ := ih
    obtain ⟨c, l, ha, hmatches⟩ := hw'.running hf
    obtain ⟨-, hctx, hnet⟩ := ha.finishRoot hroot hfinish
    obtain ⟨rfl, r, v, -, -, hcloses, rfl⟩ := ha.finish_closes hroot hfinish
    obtain ⟨i, rest, rfl, hrule, -, hrest⟩ := hmatches.exists_cons
    have hv := hw'.accounts.closes hrule hcloses
    exact ⟨hnet, nofun, fun _ => ⟨hctx, List.map_eq_nil_iff.1 hrest⟩, hv.recursions, hv.levels⟩

/-- A precedence edge is taken if its level is no less than that of the innermost precedence
rule. -/
theorem level_le_of_visit {number : Nat} (hst : w.net.states[w.state]? = some st)
    (hchoose : w.chooseEdge st = .ok (.ok number))
    (he : st.edges[number - 1]? = some (.precedence target level))
    (hvisit : w.visit = .ok (.ok w')) : w.level ≤ level := by
  simp only [Walker.visit, bind_eq_ok, Network.state_eq_ok, hst, hchoose, Option.some.injEq,
    exists_eq_left', Except.ok.injEq, he, takeEdge] at hvisit
  obtain ⟨taken, htaken, hvisit⟩ := hvisit
  split at htaken
  · obtain rfl := pure_eq_ok.1 htaken
    cases pure_eq_ok.1 hvisit
  · exact Int.not_lt.1 ‹_›

theorem Opened.move (h : Opened net w invs) (hf : w.finished = false) (hmove : w.Move w') :
    ∃ invs', Opened net w' invs' := by
  cases hmove with
  | visit hst hns hvisit => exact ⟨_, h.visit hf hst hns hvisit⟩
  | fail _ _ hvisit hfail => exact ⟨_, h.fail hf hvisit hfail⟩
  | leave hst hstop hroot hleave => exact ⟨_, h.leave hf hst hstop hroot hleave⟩
  | finish _ _ hroot hfinish => exact ⟨_, h.finish hf hroot hfinish⟩

/--
The precedence of a parse is that of its invocations. Over a loaded network with enclosed rules
every parse is inside of some invocations, those of its open nodes, and it keeps a context and a
caller for each of a precedence rule and nothing else; likewise the level, before the level 0 that
it began with. So a precedence edge that it takes in a precedence rule has at least the level that
the rule was called with, and at the end of the parse nothing but the level 0 is left.
-/
theorem precedence_exact {words : List Wire.Word} {options : LoadOptions}
    (hload : loadWords words options = .ok net) (henc : net.Enclosed) :
    (∀ rule n tokens w, parseFor net rule n tokens = .ok w → ∃ invs, Opened net w invs) ∧
    ∀ w invs, Opened net w invs →
      (∃ cs, w.tree.Open w.context cs ∧ Matches invs cs) ∧
      w.recursions = (recursive net invs).map recursion ∧
      w.levels = (recursive net invs).map (·.level) ++ [0] ∧
      (w.finished = true → w.recursions = [] ∧ w.levels = [0]) ∧
      ∀ st number target level w' r, w.finished = false → net.states[w.state]? = some st →
        w.chooseEdge st = .ok (.ok number) →
        st.edges[number - 1]? = some (.precedence target level) →
        w.visit = .ok (.ok w') → st.rule = some r → net.isPrecedenceRule r = true →
        ∃ i rest, invs = i :: rest ∧ i.rule = r ∧ i.level ≤ level := by
  refine ⟨fun rule n tokens w h => ?_, fun w invs h => ?_⟩
  · exact parseFor_induction (P := fun w => ∃ invs, Opened net w invs) (fun w hw => ⟨_, .enter hw⟩)
      (fun w w' ⟨invs, hw⟩ hf hmove => hw.move hf hmove) h
  obtain ⟨rfl, hw⟩ := h.within (loadWords_wired hload).1 henc (loadWords_marks hload)
  obtain ⟨hrec, hlevels⟩ := hw.accounts
  refine ⟨?_, hrec, hlevels, fun hf => ?_,
    fun st number target level w' r hf hst hchoose he hvisit hrule hp => ?_⟩
  · cases hf : w.finished with
    | true =>
      obtain ⟨hctx, rfl⟩ := hw.done hf
      exact ⟨[], hctx ▸ .nil, rfl⟩
    | false =>
      obtain ⟨c, l, ha, hmatches⟩ := hw.running hf
      exact ⟨c :: l, ha.tree, hmatches⟩
  · obtain rfl := (hw.done hf).2
    exact ⟨hrec, hlevels⟩
  · obtain ⟨c, l, ha, hmatches⟩ := hw.running hf
    obtain ⟨i, rest, rfl, hi, -⟩ := hmatches.exists_cons
    have hc : c.rule = r :=
      Option.some.inj (ha.state.symm.trans ((Network.ownerOf_eq hst).trans hrule))
    have hlevel := level_le_of_visit hst hchoose he hvisit
    rw [Walker.level, hlevels, recursive_cons_of_pos (by rwa [hi, hc])] at hlevel
    exact ⟨i, rest, rfl, hi.trans hc, hlevel⟩

end Walker

namespace Wire

/-- The words of a network with symbols up to 3, some of whose rule starts are marked for
precedence. -/
def markedWords (marked : List Word) (states : List (List Word)) (rules : List Word)
    (edges : List (List Word)) (decisions : List Word) : List Word :=
  let counted (n : Nat) (words : List Word) := UInt16.ofNat n :: words
  shiftWords <| [3] ++ toWords identifierWords Version.newest.identifier ++ [1, 3] ++
    counted states.length states.flatten ++ [0] ++ counted marked.length marked ++
    counted rules.length rules ++ [0, 0, 0] ++ counted edges.length edges.flatten ++
    counted decisions.length decisions

def callAt (s follow start rule level : Word) : List Word := [s, follow, 3, start, rule, level]

def guardAt (s t level : Word) : List Word := [s, t, 10, level, 0, 0]

/-- Rule 0 calls the precedence rule 1 at level 5 and then has an edge of level 3; rule 1 has a call
that goes on in the rule it calls. -/
def strayRecursion : List Word :=
  markedWords [2] [[2, 0], [7, 0], [2, 1], [7, 1], [2, 2], [7, 2], [1, 0], [1, 0], [1, 1],
    [1, 2]] [0, 2, 4]
    [eps 0 6, callAt 6 7 2 1 5, guardAt 7 1 3, eps 2 8, callOf 8 9 4 2, eps 4 9, eps 9 5] []

end Wire

namespace Walker

open Wire

/-- In a call of `sumWords` the edge of level 1 is taken, and the rule was called with the level
0. -/
theorem precedence_exact_sumWords :
    loadWords sumWords { optimize := false } = .ok (loaded sumWords) ∧
    (loaded sumWords).Enclosed ∧ ∃ w invs i rest,
      parseFor (loaded sumWords) 1 7 [tokenOf 1, tokenOf 2, tokenOf 1] = .ok w ∧
      Opened (loaded sumWords) w invs ∧
      w.levels = (recursive (loaded sumWords) invs).map (·.level) ++ [0] ∧ w.levels = [0, 0] ∧
      invs = i :: rest ∧ i.rule = 0 ∧ i.level ≤ 1 := by
  have hload : loadWords sumWords { optimize := false } = .ok (loaded sumWords) :=
    loadWords_loaded (by decide +kernel)
  have henc : (loaded sumWords).Enclosed := by decide +kernel
  obtain ⟨w, hw, hat⟩ :=
    ok_of_any (x := parseFor (loaded sumWords) 1 7 [tokenOf 1, tokenOf 2, tokenOf 1])
    (p := fun w => decide (w.state = 9 ∧ w.finished = false ∧ w.levels = [0, 0]) &&
      w.visit.toOption.any (·.toOption.isSome)) (by decide +kernel)
  simp only [Bool.and_eq_true] at hat
  obtain ⟨hstands, hvisit⟩ := hat
  obtain ⟨hstate, hf, hlevels⟩ := of_decide_eq_true hstands
  obtain ⟨visited, hvisit, hok⟩ := ok_of_any hvisit
  cases visited with
  | error f => cases hok
  | ok w' =>
    obtain ⟨hopened, hexact⟩ := precedence_exact hload henc
    obtain ⟨invs, hinvs⟩ := hopened 1 7 _ w hw
    obtain ⟨st, hst, hrule, hedges, hp⟩ : ∃ st ∈ (loaded sumWords).states[9]?, st.rule = some 0 ∧
        st.edges = [.precedence 10 1] ∧ (loaded sumWords).isPrecedenceRule 0 = true := by
          decide +kernel
    have hchoose : w.chooseEdge st = .ok (.ok 1) := by rw [chooseEdge, hedges]; rfl
    obtain ⟨-, -, hstack, -, hedge⟩ := hexact w invs hinvs
    obtain ⟨i, rest, hi, hof, hle⟩ :=
      hedge st 1 10 1 w' 0 hf (hstate ▸ hst) hchoose (by rw [hedges]; rfl) hvisit hrule hp
    exact ⟨hload, henc, w, invs, i, rest, hw, hinvs, hstack, hlevels, hi, hof, hle⟩

/-- The rule that is called returns from the rule that goes on in it, so the level 5 is never
popped. The edge of level 3 fails, and the level is left at the end. -/
theorem level_left_over :
    loadWords strayRecursion { optimize := false } = .ok (loaded strayRecursion) ∧
    (loaded strayRecursion).Partitioned ∧ ∃ w, parseFor (loaded strayRecursion) 0 11 [] = .ok w ∧
    w.finished = true ∧
      w.levels = [5, 0] ∧ w.recursions ≠ [] := by
  refine ⟨loadWords_loaded (by decide +kernel), by decide +kernel, ?_⟩
  obtain ⟨w, hw, hleft⟩ := ok_of_any (x := parseFor (loaded strayRecursion) 0 11 [])
    (p := fun w => decide (w.finished = true ∧ w.levels = [5, 0] ∧ w.recursions ≠ []))
      (by decide +kernel)
  exact ⟨w, hw, of_decide_eq_true hleft⟩

end Walker

end GrammarWalk
