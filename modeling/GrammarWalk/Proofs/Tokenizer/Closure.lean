import GrammarWalk.Proofs.Network.Cycles
import GrammarWalk.Proofs.Network.Path
import GrammarWalk.Proofs.Search
import GrammarWalk.Tokenizer.Match
import Mathlib.Algebra.Order.BigOperators.Group.List
import Mathlib.Data.Fintype.BigOperators
import Mathlib.Tactic.Ring

/-! Closing a front of threads over the moves without input. In a lexer without non-greedy
decisions, where no action is met again before some input, this ends within its bound and finds
every thread that can be reached. -/

namespace GrammarWalk

namespace Network

/-- No decision prefers the shorter match. -/
def Greedy (net : Network) : Prop :=
  ∀ {s : Nat} {st : State}, net.states[s]? = some st → st.isNonGreedy = false

/-- Calls are made from where they do not go too deep. -/
abbrev Shallow (p : Spot) (_ : Call) : Prop := p.2.length < Tokenizer.maxCalls

/-- From behind an action, no path without input comes back to it. -/
def ActionsAdvance (net : Network) : Prop :=
  ∀ {s target rule : Nat} {st : State} {index : Option Nat} {contextual : Bool},
    net.states[s]? = some st →
    st.isRuleStop = false → .action target rule index contextual ∈ st.followed →
    ¬ net.Slips State.followed Shallow (target, []) (s, [])

end Network

namespace Tokenizer

open Network Relation

variable {net : Network} {t t' x y : Thread} {st : State} {e : Edge} {f f' : Front} {symbol : Int}

def Thread.spot (t : Thread) : Spot := (t.state, t.stack)

section moves

/-- One move of a thread without input. -/
inductive Moves (net : Network) : Thread → Thread → Prop
  | back {t : Thread} {st : State} {q : Nat} {rest : List Nat} : net.states[t.state]? = some st →
      st.isRuleStop = true → t.stack = q :: rest → Moves net t { t with state := q, stack := rest }
  | along {t t' : Thread} {st : State} {e : Edge} : net.states[t.state]? = some st →
      st.isRuleStop = false → e ∈ st.followed → t.along false e = some t' → Moves net t t'

/-- The thread is at the end of its rule, with no call open. -/
def Accepting (net : Network) (t : Thread) : Prop :=
  t.stack = [] ∧ ∃ st, net.states[t.state]? = some st ∧ st.isRuleStop = true

/-- The thread is at the end of its rule, or somewhere that input is taken. -/
def Waits (net : Network) (t : Thread) : Prop :=
  Accepting net t ∨ ∃ st, net.states[t.state]? = some st ∧ st.isRuleStop = false ∧
    st.isSilent = false

/-- What an edge makes of a thread: it goes to where the edge leads, with a call open or a command
more. -/
theorem along_eq_some : t.along false e = some t' ↔ e.isSilent = true ∧
    ((∃ c, e = .call c ∧ t.stack.length < maxCalls ∧
      t' = { t with state := c.start, stack := c.follow :: t.stack, passedNonGreedy := false }) ∨
    (∃ target rule index contextual, e = .action target rule (some index) contextual ∧
      t.stack = [] ∧ t' = { t with
        state := target, commands := t.commands ++ [index], passedNonGreedy := false }) ∨
    (e.call? = none ∧
      (∀ target rule index contextual, e = .action target rule (some index) contextual →
      t.stack ≠ []) ∧ t' = { t with state := e.target, passedNonGreedy := false })) := by
  cases e with
  | call c =>
    simp only [Thread.along, Edge.target]
    split
    · simp [Edge.isSilent, Edge.call?]
      omega
    · simp [Edge.isSilent, Edge.call?, eq_comm]
      omega
  | action target rule index contextual =>
    simp only [Thread.along, Edge.target, Edge.isSilent, Edge.call?, List.isEmpty_iff,
      Option.some.injEq, eq_comm (b := t')]
    cases index with
    | none => simp
    | some index =>
      by_cases hstack : t.stack = []
      · simp only [hstack, if_true]
        constructor
        · exact fun h => ⟨trivial, .inr (.inl ⟨_, _, _, _, rfl, trivial, h⟩)⟩
        · rintro ⟨-, ⟨_, h, -⟩ | ⟨_, _, _, _, h, -, rfl⟩ | ⟨-, hmark, -⟩⟩
          · cases h
          · cases h
            rfl
          · exact absurd rfl (hmark _ _ _ _ rfl)
      · simp [hstack]
  | epsilon | predicate | precedence =>
    constructor
    · intro h
      refine ⟨rfl, .inr (.inr ⟨rfl, fun _ _ _ _ hmark => ?_, (Option.some.inj h).symm⟩)⟩
      cases hmark
    · rintro ⟨-, ⟨_, h, -⟩ | ⟨_, _, _, _, h, -⟩ | ⟨-, -, rfl⟩⟩
      · cases h
      · cases h
      · rfl
  | range | atom | set | notSet | wildcard => simp [Thread.along, Edge.isSilent]

theorem Moves.slip (h : Moves net t t') : net.Slip State.followed Shallow t.spot t'.spot := by
  cases h with
  | back hst hstop hstack =>
    rw [Thread.spot, hstack]
    exact .back hst hstop
  | along hst hns he halong =>
    obtain ⟨hsilent, ⟨c, rfl, hcalls, rfl⟩ | ⟨_, _, _, _, rfl, hstack, rfl⟩ | ⟨hcall, -, rfl⟩⟩ :=
      along_eq_some.1 halong
    · exact .enter hst hns he hcalls
    · exact .silent hst hns he rfl rfl
    · exact .silent hst hns he hsilent hcall

theorem exists_moves {p : Spot} (h : net.Slip State.followed Shallow t.spot p) :
    ∃ t', Moves net t t' ∧ t'.spot = p := by
  generalize ht : t.spot = s at h
  cases h with
  | back hst hstop =>
    obtain ⟨rfl, hstack⟩ := Prod.mk.inj ht
    exact ⟨_, .back hst hstop hstack, rfl⟩
  | @enter s stack st c hst hns hc hcalls =>
    obtain ⟨rfl, rfl⟩ := Prod.mk.inj ht
    exact ⟨_, .along hst hns hc (along_eq_some.2 ⟨rfl, .inl ⟨c, rfl, hcalls, rfl⟩⟩), rfl⟩
  | @silent s stack st e hst hns he hsilent hcall =>
    obtain ⟨rfl, rfl⟩ := Prod.mk.inj ht
    by_cases hmark : ∃ target rule index contextual, e =
      .action target rule (some index) contextual ∧ t.stack = []
    · obtain ⟨target, rule, index, contextual, rfl, hstack⟩ := hmark
      exact ⟨_,
        .along hst hns he (along_eq_some.2 ⟨rfl, .inr (.inl ⟨_, _, _, _, rfl, hstack, rfl⟩)⟩), rfl⟩
    · push Not at hmark
      exact ⟨_, .along hst hns he (along_eq_some.2 ⟨hsilent, .inr (.inr ⟨hcall, hmark, rfl⟩)⟩), rfl⟩

theorem Moves.alternative_eq (h : Moves net t t') : t'.alternative = t.alternative := by
  cases h with
  | back => rfl
  | along _ _ _ halong =>
    obtain ⟨-, ⟨_, _, _, rfl⟩ | ⟨_, _, _, _, _, _, rfl⟩ | ⟨_, _, rfl⟩⟩ :=
      along_eq_some.1 halong <;> rfl

theorem alternative_of_reaches (h : ReflTransGen (Moves net) t x) :
    x.alternative = t.alternative := by
  induction h with
  | refl => rfl
  | tail _ hm ih => exact hm.alternative_eq.trans ih

theorem moves_iff_along (hst : net.states[t.state]? = some st) (hns : st.isRuleStop = false) :
    Moves net t t' ↔ ∃ e ∈ st.followed, t.along false e = some t' := by
  constructor
  · intro h
    cases h with
    | back hst' hstop => simp_all
    | along hst' _ he halong =>
      obtain rfl := Option.some.inj (hst'.symm.trans hst)
      exact ⟨_, he, halong⟩
  · rintro ⟨e, he, halong⟩
    exact .along hst hns he halong

theorem moves_iff_of_stop (hst : net.states[t.state]? = some st) (hstop : st.isRuleStop = true) :
    Moves net t t' ↔ ∃ q rest, t.stack = q :: rest ∧ t' = { t with state := q, stack := rest } := by
  constructor
  · intro h
    cases h with
    | back _ _ hstack => exact ⟨_, _, hstack, rfl⟩
    | along hst' hns => simp_all
  · rintro ⟨q, rest, hstack, rfl⟩
    exact .back hst hstop hstack

theorem accepting_iff (hst : net.states[t.state]? = some st) :
    Accepting net t ↔ t.stack = [] ∧ st.isRuleStop = true := by
  simp [Accepting, hst]

theorem waits_iff (hst : net.states[t.state]? = some st) :
    Waits net t ↔ t.stack = [] ∧ st.isRuleStop = true ∨ st.isRuleStop = false ∧
      st.isSilent = false := by
  simp [Waits, accepting_iff hst, hst]

end moves

section range

/-- The thread and its calls are in states, the calls are not too deep, and it passed no non-greedy
decision. -/
structure Thread.InRange (net : Network) (t : Thread) : Prop where
  state : t.state < net.states.size
  stack : ∀ q ∈ t.stack, q < net.states.size
  calls : t.stack.length ≤ maxCalls
  greedy : t.passedNonGreedy = false

theorem Moves.inRange (hw : net.Wired) (h : Moves net t t') (ht : t.InRange net) :
    t'.InRange net := by
  cases h with
  | back _ _ hstack =>
    have hq := ht.stack
    have hcalls := ht.calls
    rw [hstack] at hq hcalls
    rw [List.forall_mem_cons] at hq
    exact ⟨hq.1, hq.2, Nat.le_of_succ_le hcalls, ht.greedy⟩
  | along hst _ he halong =>
    have hin := (hw.within hst).followed _ he
    obtain ⟨-, ⟨c, rfl, hcalls, rfl⟩ | ⟨_, _, _, _, rfl, hstack, rfl⟩ | ⟨_, _, rfl⟩⟩ :=
      along_eq_some.1 halong
    · exact ⟨hin.1, List.forall_mem_cons.2 ⟨hin.2 c rfl, ht.stack⟩, hcalls, rfl⟩
    · exact ⟨hin.1, ht.stack, ht.calls, rfl⟩
    · exact ⟨hin.1, ht.stack, ht.calls, rfl⟩

theorem inRange_of_reaches (hw : net.Wired) (h : ReflTransGen (Moves net) t x)
    (ht : t.InRange net) : x.InRange net := by
  induction h with
  | refl => exact ht
  | tail _ hm ih => exact hm.inRange hw ih

end range

section bound

/-- The places where a command is met, each with the number of the command. -/
def marks (net : Network) : List (Nat × Nat) :=
  net.states.toList.flatMap fun st => st.followed.filterMap fun e => match e with
    | .action _ _ (some index) _ => some (st.number, index)
    | _ => none

theorem mem_marks (hw : net.Wired) {s target rule index : Nat} {contextual : Bool}
    (hst : net.states[s]? = some st)
    (he : .action target rule (some index) contextual ∈ st.followed) : (s, index) ∈ marks net := by
  refine List.mem_flatMap.2 ⟨st, Array.mem_toList_iff.2 (Array.mem_of_getElem? hst), ?_⟩
  exact List.mem_filterMap.2 ⟨_, he, by rw [hw.number hst]⟩

theorem length_marks_le : (marks net).length ≤ net.edgeCount := by
  have hsum : (marks net).length ≤
      (net.states.toList.map fun st => st.edges.length + st.followed.length).sum := by
    rw [marks, List.length_flatMap]
    refine List.sum_le_sum fun st _ => ?_
    exact (List.length_filterMap_le ..).trans (Nat.le_add_left ..)
  exact hsum

/-- What commands a thread met on its way from `t` to `x`, and where: each mark is behind it for
good. -/
structure Met (net : Network) (t x : Thread) (met : List (Nat × Nat)) : Prop where
  commands : x.commands = t.commands ++ met.map Prod.snd
  nodup : met.Nodup
  marked : ∀ m ∈ met, m ∈ marks net
  behind : ∀ m ∈ met, ∃ st target rule contextual, net.states[m.1]? = some st ∧
    st.isRuleStop = false ∧
    .action target rule (some m.2) contextual ∈ st.followed ∧
    net.Slips State.followed Shallow (target, []) x.spot

theorem Met.move {met : List (Nat × Nat)} (h : Met net t x met) (hm : Moves net x y)
    (hcommands : y.commands = x.commands) : Met net t y met where
  commands := hcommands.trans h.commands
  nodup := h.nodup
  marked := h.marked
  behind m hm' := by
    obtain ⟨st, target, rule, contextual, hst, hns, he, hpath⟩ := h.behind m hm'
    exact ⟨st, target, rule, contextual, hst, hns, he, hpath.tail hm.slip⟩

theorem exists_met (hw : net.Wired) (ha : net.ActionsAdvance) (h : ReflTransGen (Moves net) t x) :
    ∃ met, Met net t x met := by
  induction h with
  | refl => exact ⟨[], by simp, by simp, by simp, by simp⟩
  | @tail x y _ hm ih =>
    obtain ⟨met, hmet⟩ := ih
    cases hm with
    | back hst hstop hstack => exact ⟨met, hmet.move (.back hst hstop hstack) rfl⟩
    | @along _ st e hst hns he halong =>
      have hmove := Moves.along hst hns he halong
      obtain ⟨-, ⟨_, _, _, rfl⟩ | ⟨target, rule, index, contextual, rfl, hstack,
          rfl⟩ | ⟨_, _, rfl⟩⟩ :=
        along_eq_some.1 halong
      · exact ⟨met, hmet.move hmove rfl⟩
      · have hnew : (x.state, index) ∉ met := fun hmem => by
          obtain ⟨st', target', rule', contextual', hst', hns', he', hpath⟩ := hmet.behind _ hmem
          rw [Thread.spot, hstack] at hpath
          exact ha hst' hns' he' hpath
        refine ⟨met ++ [(x.state, index)], by simp [hmet.commands], ?_, fun m hm => ?_,
          fun m hm => ?_⟩
        · exact List.nodup_append.2 ⟨hmet.nodup, by simp, fun a ha b hb hab => hnew (by simp_all)⟩
        · rcases List.mem_append.1 hm with hm | hm
          · exact hmet.marked m hm
          · exact List.mem_singleton.1 hm ▸ mem_marks hw hst he
        · rcases List.mem_append.1 hm with hm | hm
          · obtain ⟨st', target', rule', contextual', hst', hns', he', hpath⟩ := hmet.behind m hm
            exact ⟨st', target', rule', contextual', hst', hns', he', hpath.tail hmove.slip⟩
          · obtain rfl := List.mem_singleton.1 hm
            refine ⟨st, target, rule, contextual, hst, hns, he, ?_⟩
            rw [Thread.spot, hstack]
            exact .refl
      · exact ⟨met, hmet.move hmove rfl⟩

/-- The commands that a thread met since it had `n`, by their first places among the marks. -/
def since (net : Network) (n : Nat) (t : Thread) : List Nat :=
  (t.commands.drop n).map fun index => ((marks net).map Prod.snd).idxOf index

/-- A thread, as numbers below the base of the bound on closing. -/
def code (net : Network) (n : Nat) (t : Thread) :
    Nat × (Fin maxCalls → Nat) × (Fin net.edgeCount → Nat) :=
  (t.state, fun i => place t.stack[i.val]?, fun i => place (since net n t)[i.val]?)

theorem Met.commands_of_since {met : List (Nat × Nat)} (h : Met net t x met) :
    x.commands =
    t.commands ++ (since net t.commands.length x).map fun i =>
    ((marks net).map Prod.snd)[i]?.getD 0 := by
  rw [since, h.commands, List.drop_left, List.map_map]
  refine congrArg _ (Eq.trans (List.map_id _).symm (List.map_congr_left fun index hindex => ?_))
  obtain ⟨m, hm, rfl⟩ := List.mem_map.1 hindex
  have hmem : m.2 ∈ (marks net).map Prod.snd := List.mem_map_of_mem (h.marked m hm)
  exact (congrArg (·.getD 0) (List.getElem?_idxOf hmem)).symm

theorem Met.since_bounds {met : List (Nat × Nat)} (h : Met net t x met) :
    (since net t.commands.length x).length ≤ net.edgeCount ∧
      ∀ i ∈ since net t.commands.length x, i < net.edgeCount := by
  have hlength : met.length ≤ net.edgeCount :=
    (h.nodup.subperm h.marked).length_le.trans length_marks_le
  rw [since, h.commands, List.drop_left, List.length_map, List.length_map]
  refine ⟨hlength, fun i hi => ?_⟩
  obtain ⟨index, hindex, rfl⟩ := List.mem_map.1 hi
  obtain ⟨m, hm, rfl⟩ := List.mem_map.1 hindex
  have := List.idxOf_lt_length_of_mem (List.mem_map_of_mem (f := Prod.snd) (h.marked m hm))
  rw [List.length_map] at this
  exact this.trans_le length_marks_le

/-- The numbers below `b` that a code can be made of. -/
def codes (n b : Nat) : Finset (Nat × (Fin maxCalls → Nat) × (Fin n → Nat)) :=
  Finset.range b ×ˢ (Fintype.piFinset fun _ => Finset.range b) ×ˢ Fintype.piFinset fun _ =>
    Finset.range b

theorem card_codes (n b : Nat) : (codes n b).card = b ^ (1 + maxCalls + n) := by
  simp only [codes, Finset.card_product, Finset.card_range, Fintype.card_piFinset,
    Finset.prod_const, Finset.card_univ, Fintype.card_fin]
  ring

theorem code_mem_codes (hw : net.Wired) (ha : net.ActionsAdvance) (ht : t.InRange net)
    (hx : ReflTransGen (Moves net) t x) :
    code net t.commands.length x ∈ codes net.edgeCount (net.states.size + net.edgeCount + 2) := by
  have hin := inRange_of_reaches hw hx ht
  have hstate := hin.state
  obtain ⟨met, hmet⟩ := exists_met hw ha hx
  have hstack (i : Fin maxCalls) := place_le hin.stack i
  have hsince (i : Fin net.edgeCount) := place_le hmet.since_bounds.2 i
  simp only [codes, code, Finset.mem_product, Finset.mem_range, Fintype.mem_piFinset]
  exact ⟨by omega, fun i => by have := hstack i; omega, fun i => by have := hsince i; omega⟩

theorem eq_of_code (hw : net.Wired) (ha : net.ActionsAdvance) (ht : t.InRange net)
    (hx : ReflTransGen (Moves net) t x) (hy : ReflTransGen (Moves net) t y)
    (hxy : code net t.commands.length x = code net t.commands.length y) : x = y := by
  simp only [code, Prod.mk.injEq] at hxy
  obtain ⟨hstate, hstack, hsince⟩ := hxy
  have hinx := inRange_of_reaches hw hx ht
  have hiny := inRange_of_reaches hw hy ht
  obtain ⟨met, hmet⟩ := exists_met hw ha hx
  obtain ⟨met', hmet'⟩ := exists_met hw ha hy
  have hstack : x.stack = y.stack := eq_of_places hinx.calls hiny.calls hstack
  have hsince := eq_of_places hmet.since_bounds.1 hmet'.since_bounds.1 hsince
  have hcommands : x.commands = y.commands := by
    rw [hmet.commands_of_since, hmet'.commands_of_since, hsince]
  have halternative := (alternative_of_reaches hx).trans (alternative_of_reaches hy).symm
  have hgreedy := hinx.greedy.trans hiny.greedy.symm
  obtain ⟨⟩ := x
  obtain ⟨⟩ := y
  simp_all

theorem ncard_lt_closeBound (hw : net.Wired) (ha : net.ActionsAdvance) (ht : t.InRange net) :
    {x | ReflTransGen (Moves net) t x}.Finite ∧ {x | ReflTransGen (Moves net) t x}.ncard <
      closeBound net := by
  obtain ⟨hfin, hle⟩ := ncard_le_of_code (code net t.commands.length)
    (fun x hx => code_mem_codes hw ha ht hx) (fun x y hx hy => eq_of_code hw ha ht hx hy)
  rw [card_codes] at hle
  exact ⟨hfin, hle.trans_lt (Nat.pow_lt_pow_right (by omega) (by omega))⟩

end bound

section closing

def Front.Seen (f : Front) (t : Thread) : Prop := f.seen.contains t.stack.length t = true

theorem Front.seen_insert {threads : List Thread} :
    ({ threads, seen := f.seen.insert t.stack.length t } : Front).Seen x ↔ x = t ∨ f.Seen x := by
  exact Visited.contains_insert_own fun t : Thread => t.stack.length

theorem Front.not_seen_empty (x : Thread) : ¬ ({} : Front).Seen x := Visited.not_contains_empty _ x

def fronts : Fronts Front Thread where
  listed := Front.threads
  seen := Front.Seen

/-- The front that is carried along with an answer has been closed over the moves from `roots`. -/
abbrev Closed {β : Type} (net : Network) (roots : Thread → Prop) : β × Front → β × Front → Prop :=
  (fronts.within Prod.snd).Closed (Moves net) (Waits net) roots

theorem closed_visit {accepted matched : Bool} (ht : ¬ f.Seen t) {l : List Thread}
    (h : Closed net (Moves net t) (accepted,
      { threads := f.threads ++ l, seen := f.seen.insert t.stack.length t }) (matched, f'))
    (hl : Waits net t ∧ l = [t] ∨ ¬ Waits net t ∧ l = []) :
    Closed net (· = t) (accepted, f) (matched, f') :=
  Fronts.Closed.visit (k := fronts) (f := f) ht (fun _ => Front.seen_insert) rfl h hl

def closeFrom (net : Network) (fuel : Nat) (t : Thread) (carried : Bool × Front) :
    Except Fault (Bool × Front) :=
  close net fuel t carried.1 carried.2

theorem returns_close_edges {fuel : Nat} {accepted : Bool} (hw : net.Wired) (hg : net.Greedy)
    (ht : t.InRange net)
    (hst : net.states[t.state]? = some st) (hns : st.isRuleStop = false)
    (hnext : (fronts.within Prod.snd).Resumes (Moves net) (Waits net) (closeFrom net fuel) t
      (accepted, f))
    {f₀ : Front} (hgrows : ∀ x, x = t ∨ f.Seen x → f₀.Seen x) :
    Returns (st.followed.foldlM (fun (accepted, front) e => do
      let ahead ← net.state e.target
      match t.along (t.passedNonGreedy || ahead.isNonGreedy) e with
      | none => return (accepted, front)
      | some next =>
        if accepted && next.passedNonGreedy then return (accepted, front)
        let (matched, front) ← close net fuel next accepted front
        return (accepted || matched, front)) (accepted, f₀))
            (Closed net (Moves net t) (accepted, f₀)) := by
  refine (Fronts.returns_closed_foldlM (fun e x => t.along false e = some x) (accepted, f₀)
    fun e he => ?_).imp fun f' hf' => hf'.congr fun x => (moves_iff_along hst hns).symm
  rintro ⟨sofar, f'⟩ hf'
  refine (returns_state ((hw.within hst).followed e he).1).bind fun ahead hahead => ?_
  rw [ht.greedy, hg hahead, Bool.or_false]
  split
  · rename_i hnone
    exact returns_pure (.none (by simp [hnone]))
  · rename_i next hsome
    have hm : Moves net t next := .along hst hns he hsome
    rw [(hm.inRange hw ht).greedy, Bool.and_false]
    refine (hnext next (sofar, f') hm fun x hx => hf' x (hgrows x hx)).bind fun closed hclosed =>
      returns_pure ?_
    refine Fronts.Closed.congr (k := fronts) hclosed fun x => ?_
    simp [hsome, eq_comm]

theorem returns_close_succ {fuel : Nat} {accepted : Bool} (hw : net.Wired) (hg : net.Greedy)
    (ht : t.InRange net) (hseen : ¬ f.Seen t)
    (hnext : (fronts.within Prod.snd).Resumes (Moves net) (Waits net) (closeFrom net fuel) t
      (accepted, f)) :
    Returns (closeFrom net (fuel + 1) t (accepted, f)) (Closed net (· = t) (accepted, f)) := by
  unfold closeFrom close
  have hseen' : ¬ f.seen.contains t.stack.length t = true := hseen
  dsimp only
  rw [if_neg hseen']
  have hmarked (x : Thread) : x = t ∨ f.Seen x →
      ({ f with seen := f.seen.insert t.stack.length t } : Front).Seen x := Front.seen_insert.2
  refine (returns_state ht.state).bind fun st hst => ?_
  have hwaits := waits_iff hst
  split
  · rename_i hstop
    have hmoves (x : Thread) : Moves net t x ↔ _ := moves_iff_of_stop hst hstop
    split
    · rename_i hstack
      refine returns_pure
        (closed_visit hseen (.none fun x => ?_) (.inl ⟨by simp [hwaits, hstack, hstop], rfl⟩))
      simp [hmoves, hstack]
    · rename_i caller stack hstack
      have honly (x : Thread) : x = { t with state := caller, stack } ↔ Moves net t x := by
        simp [hmoves, hstack]
      refine (hnext _ (accepted, _) ((honly _).1 rfl) hmarked).imp fun f' hf' => ?_
      exact closed_visit hseen (by simpa using hf'.congr honly)
        (.inr ⟨by simp [hwaits, hstack, hstop], rfl⟩)
  · rename_i hns
    have hns : st.isRuleStop = false := Bool.not_eq_true _ ▸ hns
    cases hsilent : st.isSilent with
    | true =>
      refine (returns_close_edges hw hg ht hst hns hnext hmarked).imp fun f' hf' => ?_
      exact closed_visit hseen (by simpa using hf') (.inr ⟨by simp [hwaits, hns, hsilent], rfl⟩)
    | false =>
      refine (returns_close_edges hw hg ht hst hns hnext fun x hx => ?_).imp fun f' hf' => ?_
      · exact hmarked x hx
      exact closed_visit hseen hf' (.inl ⟨by simp [hwaits, hns, hsilent], rfl⟩)

/-- Closing a front over a thread finds all that the thread can turn into without input. -/
theorem returns_close (hw : net.Wired) (hg : net.Greedy) (ha : net.ActionsAdvance)
    (ht : t.InRange net) (accepted : Bool) (f : Front) :
    Returns (close net (closeBound net) t accepted f) (Closed net (· = t) (accepted, f)) := by
  obtain ⟨hfin, hlt⟩ := ncard_lt_closeBound hw ha ht
  show Returns (closeFrom net (closeBound net) t (accepted, f)) _
  refine Fronts.returns_of_unseen (k := fronts.within Prod.snd) hfin (fun x y hm hx => hx.tail hm)
    (fun fuel x carried hseen => ?_)
    (fun fuel x carried hx hseen hnext =>
      returns_close_succ hw hg (inRange_of_reaches hw hx ht) hseen hnext) .refl
    ((Set.ncard_le_ncard (fun x hx => hx.1) hfin).trans_lt hlt)
  have hseen' : carried.2.seen.contains x.stack.length x = true := hseen
  unfold closeFrom close
  rw [if_pos hseen']
  exact returns_pure (.seen hseen)

end closing

end Tokenizer

end GrammarWalk
