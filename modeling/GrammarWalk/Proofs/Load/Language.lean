import GrammarWalk.Proofs.Load.Prepare
import GrammarWalk.Proofs.Network.Language

/-! What words a loaded network accepts before and after an optimization. They are the same if the
rules are set apart, and three small networks show what may happen otherwise. -/

namespace GrammarWalk

open Network Wire

namespace Wire

/-- The words of a parser's network, from the words of its states, rules, edges and decisions. -/
def parserWords (states : List (List Word)) (rules : List Word) (edges : List (List Word))
    (decisions : List Word) : List Word :=
  let counted (n : Nat) (words : List Word) := UInt16.ofNat n :: words
  shiftWords <| [3] ++ toWords identifierWords Version.newest.identifier ++ [1, 3] ++
    counted states.length states.flatten ++ [0, 0] ++ counted rules.length rules ++ [0, 0, 0] ++
    counted edges.length edges.flatten ++ counted decisions.length decisions

/-- The words of an edge without input, of one that matches a symbol, and of a call. -/
def eps (s t : Word) : List Word := [s, t, 1, 0, 0, 0]

def atom (s t symbol : Word) : List Word := [s, t, 5, symbol, 0, 0]

def callOf (s follow start rule : Word) : List Word := [s, follow, 3, start, rule, 0]

end Wire

/-- The network of the words, loaded without an optimization. -/
def loaded (words : List Word) : Network :=
  (loadWords words { optimize := false }).toOption.getD default

theorem loadWords_loaded {words : List Word}
    (h : (loadWords words { optimize := false }).toOption.isSome = true) :
    loadWords words { optimize := false } = .ok (loaded words) := by
  unfold loaded
  cases hw : loadWords words { optimize := false } with
  | ok net => rfl
  | error e => rw [hw] at h; cases h

/--
An optimization of a loaded network gives a result, and from each state of a rule the same words
lead to the rule's stop over the raw edges, which stay as they were, and over the optimized ones.
-/
theorem optimize_keeps_words {words : List Word} {options : LoadOptions} {net : Network}
    (hoptions : options.optimize = false) (hload : loadWords words options = .ok net)
    (hset : net.SetApart) : ∃ changes opt, net.optimize = .ok (changes, opt) ∧
      ∀ {s r : Nat} {st : State}, net.states[s]? = some st → st.rule = some r →
        ∃ stop, net.ruleStops[r]? = some stop ∧ opt.ruleStops[r]? = some stop ∧
          ∀ (lo hi : Int) (w : List Int),
            (net.Labels State.edges lo hi s stop w ↔ opt.Labels State.edges lo hi s stop w) ∧
            (opt.Labels State.edges lo hi s stop w ↔ opt.Labels State.followed lo hi s stop w) := by
  obtain ⟨hd, hsize⟩ := loadWords_keeps hoptions hload
  have hw := hd.toWired
  obtain ⟨⟨changes, opt⟩, hopt, -⟩ := optimize_returns (hw.inRange hsize.ge)
  have hfaithful (lo hi : Int) : Faithful (fun _ => 0) lo hi net opt :=
    optimize_of_rounds (hset.faithful_self hd hsize)
      (fun h => h.optimizeOnce hset hw hsize fun _ _ => rfl) hopt
  refine ⟨changes, opt, hopt, fun {s r st} hs hr => ?_⟩
  obtain ⟨start, hstart, -⟩ := hset.reached hs hr
  obtain ⟨hlt, -⟩ := Array.getElem?_eq_some_iff.1 hstart
  obtain ⟨stop, hstop⟩ : ∃ stop, net.ruleStops[r]? = some stop :=
    ⟨_, Array.getElem?_eq_getElem (hsize ▸ hlt)⟩
  refine ⟨stop, hstop, (hfaithful 0 0).ruleStops_eq ▸ hstop, fun lo hi w => ?_⟩
  have hraw : net.Labels State.edges lo hi s stop w ↔ opt.Labels State.edges lo hi s stop w :=
    (hfaithful lo hi).run_edges hw (lt_size hs)
  exact ⟨hraw, hraw.symm.trans ((hfaithful lo hi).runs (lt_size hs))⟩

/-- The rule that state 0 starts calls the rule that state 4 starts, which matches the symbol 2. -/
def oneCall : List Word :=
  parserWords [[2, 0], [1, 0], [1, 0], [7, 0], [2, 1], [1, 1], [1, 1], [7, 1]] [0, 4]
    [eps 0 1, callOf 1 2 4 1, eps 2 3, eps 4 5, atom 5 6 2, eps 6 7] []

theorem optimize_keeps_oneCall :
    loadWords oneCall { optimize := false } = .ok (loaded oneCall) ∧
    (loaded oneCall).SetApart ∧ ∃ changes opt, (loaded oneCall).optimize = .ok (changes, opt) ∧
      ∀ {s r : Nat} {st : State}, (loaded oneCall).states[s]? = some st → st.rule = some r →
        ∃ stop, (loaded oneCall).ruleStops[r]? = some stop ∧ opt.ruleStops[r]? = some stop ∧
          ∀ (lo hi : Int) (w : List Int),
            ((loaded oneCall).Labels State.edges lo hi s stop w ↔
            opt.Labels State.edges lo hi s stop w) ∧
            (opt.Labels State.edges lo hi s stop w ↔ opt.Labels State.followed lo hi s stop w) := by
  have hload : loadWords oneCall { optimize := false } = .ok (loaded oneCall) :=
    loadWords_loaded (by decide +kernel)
  have hset : (loaded oneCall).SetApart :=
    ⟨by decide +kernel, by decide +kernel, by decide +kernel,
      ReachedInOrder.reached (by decide +kernel)⟩
  exact ⟨hload, hset, optimize_keeps_words rfl hload hset⟩

namespace Network

variable {net : Network}

section runs

variable {cost : Call → Nat} {lo hi : Int} {n s t stop : Nat} {w : List Int}

/-- One edge of the state leads in silence to `t`. -/
def hops (net : Network) (s t : Nat) : Bool :=
  net.states[s]?.any fun st => !st.isRuleStop && st.edges.any fun e =>
    e.isSilent && e.call?.isNone && e.target == t

theorem run_hop (h : net.hops s t = true) (hrun : net.Run State.edges cost lo hi n t stop w) :
    net.Run State.edges cost lo hi n s stop w := by
  obtain ⟨st, hs, h⟩ := Option.any_eq_true _ _ |>.1 h
  simp only [Bool.and_eq_true, Bool.not_eq_true', List.any_eq_true, Option.isNone_iff_eq_none,
    beq_iff_eq] at h
  obtain ⟨hns, e, he, ⟨hsil, hcall⟩, rfl⟩ := h
  exact .silent hs hns he hsil hcall hrun

theorem run_stop (h : net.states[s]?.any State.isRuleStop = true) :
    net.Run State.edges cost lo hi n s s [] := by
  obtain ⟨st, hs, h⟩ := Option.any_eq_true _ _ |>.1 h
  exact .stop hs h

/-- One edge of the state takes `v` and leads to `t`. -/
def shifts (net : Network) (lo hi v : Int) (s t : Nat) : Bool :=
  net.states[s]?.any fun st => !st.isRuleStop && st.edges.any fun e =>
    e.accepts v lo hi && e.target == t

theorem run_match {v : Int} (h : net.shifts lo hi v s t = true)
    (hrun : net.Run State.edges cost lo hi n t stop w) :
    net.Run State.edges cost lo hi n s stop (v :: w) := by
  obtain ⟨st, hs, h⟩ := Option.any_eq_true _ _ |>.1 h
  simp only [Bool.and_eq_true, Bool.not_eq_true', List.any_eq_true, beq_iff_eq] at h
  obtain ⟨hns, e, he, ha, rfl⟩ := h
  exact .read hs hns he ha hrun

/-- One edge of the state calls the rule from `a` to `z` and goes on at `t`. -/
def calls (net : Network) (a z s t : Nat) : Bool :=
  net.states[s]?.any fun st => !st.isRuleStop && st.edges.any fun e => e.call?.any fun c =>
    c.start == a && c.follow == t && net.ruleStops[c.rule]? == some z

theorem run_call {a z m : Nat} {u : List Int} (h : net.calls a z s t = true)
    (hroom : ∀ c, m + cost c ≤ n) (hcall : net.Run State.edges cost lo hi m a z u)
    (hrun : net.Run State.edges cost lo hi n t stop w) :
    net.Run State.edges cost lo hi n s stop (u ++ w) := by
  obtain ⟨st, hs, h⟩ := Option.any_eq_true _ _ |>.1 h
  simp only [Bool.and_eq_true, Bool.not_eq_true', List.any_eq_true, Option.any_eq_true, beq_iff_eq]
    at h
  obtain ⟨hns, e, he, c, hc, ⟨rfl, rfl⟩, hz⟩ := h
  obtain rfl := Edge.call?_eq_some.1 hc
  exact .call hs hns he hz (hroom c) hcall hrun

end runs

/-- From the state all edges lead in silence to states that match. -/
def matchesNext (net : Network) (s : Nat) : Bool :=
  net.states[s]?.any fun st => !st.isRuleStop && st.followed.all fun e =>
    e.isSilent && e.call?.isNone && net.states[e.target]?.any fun st' =>
      !st'.isRuleStop && st'.followed.all Edge.isLabelled

theorem not_labels_nil {s stop : Nat} {lo hi : Int} (h : net.matchesNext s = true) :
    ¬ net.Labels State.followed lo hi s stop [] := by
  intro hrun
  obtain ⟨st, hs, h⟩ := Option.any_eq_true _ _ |>.1 h
  simp only [Bool.and_eq_true, Bool.not_eq_true', List.all_eq_true, Option.any_eq_true,
    Option.isNone_iff_eq_none] at h
  obtain ⟨hns, hall⟩ := h
  obtain ⟨e, he, hrun⟩ := hrun.first hs hns
  obtain ⟨⟨hsil, hcall⟩, st', hs', hns', hall'⟩ := hall e he
  rcases hrun with ⟨-, -, hrun⟩ | ⟨_, _, hw, -⟩ | ⟨c, _, _, _, _, hc, -⟩
  · obtain ⟨e', he', hrun⟩ := hrun.first hs' hns'
    obtain ⟨hloud, hcall', -⟩ := Edge.of_isLabelled (hall' e' he')
    rcases hrun with ⟨hsil', -, -⟩ | ⟨_, _, hw, -⟩ | ⟨c, _, _, _, _, hc, -⟩
    · rw [hloud] at hsil'
      cases hsil'
    · cases hw
    · rw [hc] at hcall'
      cases hcall'
  · cases hw
  · rw [hc] at hcall
    cases hcall

/-- The edges of a rule's states stay in the rule, but for calls and return edges. -/
def StaysInRules (net : Network) : Prop :=
  ∀ st ∈ net.states.toList, ∀ r ∈ st.rule, ∀ e ∈ st.edges, e.call? = none →
    net.ownerOf e.target = some r ∨ (st.isRuleStop = true ∧
      ∃ caller ∈ net.states.toList, ∃ e' ∈ caller.edges, ∃ c ∈ e'.call?, c.follow = e.target)

instance (net : Network) : Decidable net.StaysInRules := by
  unfold StaysInRules
  infer_instance

end Network

/-- The words load, calls lead to the starts of their rules, other edges stay in their rule, and
states are reached from the start of their rule; but an optimization loses the empty word of state
`s`. -/
def LosesWord (words : List Word) (s stop : Nat) : Prop :=
  let net := loaded words
  loadWords words { optimize := false } = .ok net ∧
    net.CallsEnterRules ∧ net.StaysInRules ∧ net.ReachedFromStarts ∧
    (∃ st ∈ net.states[s]?, ∃ r ∈ st.rule, net.ruleStops[r]? = some stop) ∧
    ∃ changes opt, net.optimize = .ok (changes, opt) ∧
      opt.Labels State.edges 1 net.maxToken s stop [] ∧
      ¬ opt.Labels State.followed 1 net.maxToken s stop []

theorem losesWord_of_checks {words : List Word} {s stop : Nat} (rounds : Nat)
    (hload : (loadWords words { optimize := false }).toOption.isSome = true)
    (hrules : (loaded words).CallsEnterRules ∧ (loaded words).StaysInRules ∧
      (loaded words).ReachedInOrder ∧
      ∃ st ∈ (loaded words).states[s]?, ∃ r ∈ st.rule, (loaded words).ruleStops[r]? = some stop)
    (hraw : (loaded words).Labels State.edges 1 (loaded words).maxToken s stop [])
    (hlost : (Loop.unroll optimizeRound rounds ({}, { loaded words with
      states := (loaded words).states.map State.ensureOptimized })).any
        (·.toOption.any (·.2.matchesNext s)) = true) : LosesWord words s stop := by
  have hloaded := loadWords_loaded hload
  obtain ⟨hd, hsize⟩ := loadWords_keeps rfl hloaded
  obtain ⟨⟨changes, opt⟩, hopt, hnext⟩ :=
    @Loop.runOr_of_unroll _ _ _ _ Fault.unfinished rounds _ hlost
  obtain ⟨hcalls, hstays, hreached, hstop⟩ := hrules
  have hsame := SameRaw.optimize (hd.toWired.inRange hsize.ge) hopt
  refine ⟨hloaded, hcalls, hstays, hreached.reached, hstop, changes, opt, hopt, ?_,
    not_labels_nil hnext⟩
  refine hraw.congr (by rw [hsame.tables]) fun hs => ?_
  obtain ⟨l, hl⟩ := hsame.old hs
  exact ⟨_, hl, rfl, rfl⟩

/-- A decision with a rule stop ahead on one branch and a match on the other. The rule stop has a
match, too, so the branches are merged. -/
def mergedStop : List Word :=
  parserWords [[2, 0], [3, 0, 6], [3, 0, 4], [1, 0], [8, 0], [1, 0], [8, 0], [7, 0]] [0]
    [eps 0 1, eps 1 2, eps 1 5, eps 2 7, eps 2 3, atom 3 4 3, eps 4 6, atom 5 6 2,
      eps 6 7, atom 7 4 1]
    [1, 2]

theorem losesWord_mergedStop : LosesWord mergedStop 2 7 := by
  refine losesWord_of_checks 3 (by decide +kernel) (by decide +kernel) ?_ (by decide +kernel)
  exact run_hop (t := 7) (by decide +kernel) (run_stop (by decide +kernel))

/-- States outside the rules, the last three, lead into a rule stop. They come behind the stop of
the other rule, so their match is taken for that of the rule that they lead into. -/
def strayStates : List Word :=
  parserWords [[2, 0], [7, 0], [2, 1], [3, 1, 6], [1, 1], [1, 1], [8, 1], [1, 1], [7, 1],
      [1, 0xFFFF], [1, 0xFFFF], [1, 0xFFFF]] [0, 2]
    [eps 0 1, eps 2 3, eps 3 4, eps 3 5, atom 5 6 2, eps 6 8, callOf 4 7 0 0, eps 7 8,
      callOf 9 10 2 1, atom 10 11 1, eps 11 1] [3]

theorem losesWord_strayStates : LosesWord strayStates 4 8 := by
  refine losesWord_of_checks 3 (by decide +kernel) (by decide +kernel) ?_ (by decide +kernel)
  refine run_call (a := 0) (z := 1) (m := 0) (t := 7) (u := []) (by decide +kernel)
    (fun _ => Nat.le_refl _) ?_ ?_
  · exact run_hop (t := 1) (by decide +kernel) (run_stop (by decide +kernel))
  · exact run_hop (t := 8) (by decide +kernel) (run_stop (by decide +kernel))

/-- The call in state 16 goes on in the stop of another rule. -/
def strayFollow : List Word :=
  parserWords [[2, 0], [7, 0], [2, 1], [1, 1], [1, 1], [7, 1],
      [2, 2], [3, 2, 12], [1, 2], [1, 2], [1, 2], [1, 2], [8, 2], [7, 2],
      [2, 3], [3, 3, 17], [1, 3], [8, 3], [7, 3]] [0, 2, 6, 14]
    [eps 0 1, eps 2 3, callOf 3 4 0 0, eps 4 5, eps 6 7, eps 7 8, eps 7 10, callOf 8 9 2 1,
      atom 9 13 1, atom 10 11 1, atom 11 12 2, eps 12 13, eps 14 15, eps 15 16, eps 15 17,
      callOf 16 1 6 2, eps 17 18] [7, 15]

theorem losesWord_strayFollow : LosesWord strayFollow 3 5 := by
  refine losesWord_of_checks 3 (by decide +kernel) (by decide +kernel) ?_ (by decide +kernel)
  refine run_call (a := 0) (z := 1) (m := 0) (t := 4) (u := []) (by decide +kernel)
    (fun _ => Nat.le_refl _) ?_ ?_
  · exact run_hop (t := 1) (by decide +kernel) (run_stop (by decide +kernel))
  · exact run_hop (t := 5) (by decide +kernel) (run_stop (by decide +kernel))

/-- Without more of the rules than that calls enter them and their edges stay inside, an
optimization may change what words a state accepts: if a rule stop has a match of its own, if states
outside the rules lead into one, or if a call goes on outside its rule. -/
theorem optimize_loses_words :
    LosesWord mergedStop 2 7 ∧ LosesWord strayStates 4 8 ∧ LosesWord strayFollow 3 5 :=
  ⟨losesWord_mergedStop, losesWord_strayStates, losesWord_strayFollow⟩

end GrammarWalk
