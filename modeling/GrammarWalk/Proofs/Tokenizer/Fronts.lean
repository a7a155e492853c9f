import GrammarWalk.Proofs.Tokenizer.Rounds
import GrammarWalk.Proofs.Tokenizer.Walk

/-! The fronts of a lexer as walks. Closing a front over a thread, one step over all threads of a
front, and the front at the start of a match are each one walk. The flag of a closure, which tells
whether the alternative in progress has matched, stands for the list of alternatives that have,
since a front has its threads in the order of alternatives. -/

namespace GrammarWalk.Tokenizer

open Network

section graph

def nonGreedyAt (net : Network) (s : Nat) : Bool := net.states[s]?.any State.isNonGreedy

/-- The threads one move without input ahead, in order of preference. -/
def ahead (net : Network) (t : Thread) : List Thread :=
  match net.states[t.state]? with
  | none => []
  | some st =>
    if st.isRuleStop then
      match t.stack with
      | [] => []
      | caller :: stack => [{ t with state := caller, stack }]
    else st.followed.filterMap fun e => t.along (t.passedNonGreedy || nonGreedyAt net e.target) e

def graph (net : Network) : Graph where
  ahead := ahead net
  waits := Waits net
  accepts := Accepting net

def sends (net : Network) (symbol : Int) (t : Thread) : List Thread :=
  match net.states[t.state]? with
  | none => []
  | some st =>
    if st.isRuleStop then []
    else (st.followed.filter (·.accepts symbol Symbol.minChar Symbol.maxChar)).map fun e =>
      { t with state := e.target }

def roots (net : Network) (mode : Nat) : List Thread :=
  match net.modes[mode]?.bind (net.states[·]?) with
  | none => []
  | some st => st.edges.zipIdx.map fun (e, alternative) =>
      { state := e.target, alternative, passedNonGreedy := st.isNonGreedy }

variable {net : Network} {t u : Thread} {st : State} {s : Nat}

theorem nonGreedyAt_eq (h : net.states[s]? = some st) : nonGreedyAt net s = st.isNonGreedy := by
  rw [nonGreedyAt, h, Option.any_some]

theorem ahead_of_stop (h : net.states[t.state]? = some st) (hstop : st.isRuleStop = true) :
    ahead net t = match t.stack with
      | [] => []
      | caller :: stack => [{ t with state := caller, stack }] := by
  unfold ahead
  rw [h]
  exact if_pos hstop

theorem ahead_eq (h : net.states[t.state]? = some st) (hns : st.isRuleStop = false) :
    ahead net t = st.followed.filterMap fun e =>
      t.along (t.passedNonGreedy || nonGreedyAt net e.target) e := by
  unfold ahead
  rw [h]
  exact if_neg (by simp [hns])

theorem sends_eq (h : net.states[t.state]? = some st) (hns : st.isRuleStop = false) (symbol : Int) :
    sends net symbol t = (st.followed.filter (·.accepts symbol Symbol.minChar Symbol.maxChar)).map
      fun e =>
      { t with state := e.target } := by
  unfold sends
  rw [h]
  exact if_neg (by simp [hns])

/-- A thread goes along an edge that takes no input, to where the edge leads. A call is opened for a
call. -/
theorem along_cases {b : Bool} {e : Edge} (h : t.along b e = some u) :
    u.alternative = t.alternative ∧
    u.passedNonGreedy = b ∧
    ((∃ c, e = .call c ∧ u.state = c.start ∧ u.stack = c.follow :: t.stack) ∨
      e.call? = none ∧ u.state = e.target ∧ u.stack = t.stack) := by
  cases e with
  | call c =>
    simp only [Thread.along] at h
    split at h
    · cases h
    · obtain rfl := Option.some.inj h
      exact ⟨rfl, rfl, .inl ⟨c, rfl, rfl, rfl⟩⟩
  | action =>
    obtain rfl := Option.some.inj h
    split <;> exact ⟨rfl, rfl, .inr ⟨rfl, rfl, rfl⟩⟩
  | epsilon | predicate | precedence =>
    obtain rfl := Option.some.inj h
    exact ⟨rfl, rfl, .inr ⟨rfl, rfl, rfl⟩⟩
  | atom | range | set | notSet | wildcard => cases h

theorem ahead_cases (h : u ∈ ahead net t) :
    (∃ st caller stack, net.states[t.state]? = some st ∧ st.isRuleStop = true ∧
      t.stack = caller :: stack ∧ u = { t with state := caller, stack }) ∨
    ∃ st e, net.states[t.state]? = some st ∧ st.isRuleStop = false ∧ e ∈ st.followed ∧
      t.along (t.passedNonGreedy || nonGreedyAt net e.target) e = some u := by
  cases hst : net.states[t.state]? with
  | none => simp [ahead, hst] at h
  | some st =>
    cases hstop : st.isRuleStop with
    | true =>
      rw [ahead_of_stop hst hstop] at h
      split at h
      · cases h
      · rename_i caller stack hstack
        exact .inl ⟨st, caller, stack, rfl, hstop, hstack, List.mem_singleton.1 h⟩
    | false =>
      rw [ahead_eq hst hstop] at h
      obtain ⟨e, he, halong⟩ := List.mem_filterMap.1 h
      exact .inr ⟨st, e, rfl, hstop, he, halong⟩

theorem ahead_keeps (h : u ∈ ahead net t) :
    u.alternative = t.alternative ∧ (t.passedNonGreedy = true → u.passedNonGreedy = true) := by
  obtain ⟨st, caller, stack, -, -, -, rfl⟩ | ⟨st, e, -, -, -, halong⟩ := ahead_cases h
  · exact ⟨rfl, id⟩
  · obtain ⟨halternative, hmark, -⟩ := along_cases halong
    exact ⟨halternative, fun hpassed => by rw [hmark, hpassed, Bool.true_or]⟩

theorem sends_cases {symbol : Int} (h : u ∈ sends net symbol t) :
    ∃ st e, net.states[t.state]? = some st ∧
    st.isRuleStop = false ∧ e ∈ st.followed ∧
    e.accepts symbol Symbol.minChar Symbol.maxChar = true ∧
    u = { t with state := e.target } := by
  cases hst : net.states[t.state]? with
  | none => simp [sends, hst] at h
  | some st =>
    cases hstop : st.isRuleStop with
    | true => simp [sends, hst, hstop] at h
    | false =>
      rw [sends_eq hst hstop] at h
      obtain ⟨e, he, rfl⟩ := List.mem_map.1 h
      obtain ⟨he, haccepts⟩ := List.mem_filter.1 he
      exact ⟨st, e, rfl, hstop, he, haccepts, rfl⟩

theorem sends_keeps {symbol : Int} (h : u ∈ sends net symbol t) :
    u = { t with state := u.state } := by
  obtain ⟨_, _, -, -, -, -, rfl⟩ := sends_cases h
  rfl

theorem roots_cases {mode : Nat} (h : t ∈ roots net mode) : ∃ (s : Nat) (st : State) (e : Edge),
    net.states[s]? = some st ∧ e ∈ st.edges ∧ t.state = e.target ∧ t.stack = [] := by
  unfold roots at h
  split at h
  · cases h
  · rename_i st hst
    obtain ⟨s, -, hst⟩ := Option.bind_eq_some_iff.1 hst
    obtain ⟨⟨e, i⟩, he, rfl⟩ := List.mem_map.1 h
    exact ⟨s, st, e, hst, List.fst_mem_of_mem_zipIdx he, rfl, rfl⟩

end graph

variable {net : Network} {t : Thread} {st : State} {e : Edge} {f f' : Front} {v w : Visit}
  {symbol : Int}
  {mode fuel : Nat} {threads : List Thread} {accepted matched : Bool} {found found' : Option Nat}

/-- The front is what the search has come to. -/
structure Shows (f : Front) (v : Visit) : Prop where
  threads : f.threads = v.listed
  seen : ∀ x, f.Seen x ↔ x ∈ v.seen

theorem Shows.start : Shows {} {} := ⟨rfl, fun x => by simp [Front.not_seen_empty]⟩

theorem Shows.look (h : Shows f v) (net : Network) (t : Thread) {l : List Thread}
    (hl : Waits net t ∧ l = [t] ∨ ¬ Waits net t ∧ l = []) :
    Shows { threads := f.threads ++ l, seen := f.seen.insert t.stack.length t }
      ((graph net).look v t) := by
  refine ⟨?_, fun x => ?_⟩
  · have hwaits : (graph net).waits t ↔ Waits net t := Iff.rfl
    obtain ⟨hw, rfl⟩ | ⟨hw, rfl⟩ := hl
    · simp [Graph.look, hwaits, hw, h.threads]
    · simp [Graph.look, hwaits, hw, h.threads]
  · rw [Front.seen_insert, h.seen]
    exact List.mem_cons.symm

/-- What closing a front over a thread comes to, as a walk, with the flag that tells of its
alternative. -/
def Walks (net : Network) (ts : List Thread) (alternative : Nat) (v : Visit) (accepted : Bool)
    (f : Front) : Prop :=
  ∃ v', Walk (graph net) ts v v' ∧ Shows f v' ∧ (accepted = true ↔ alternative ∈ v'.matched)

theorem Walks.look {alternative : Nat} (hout : ¬ v.LeavesOut t)
    (h : Walks net (ahead net t) alternative ((graph net).look v t) matched f') :
    Walks net [t] alternative v matched f' := by
  obtain ⟨v', hwalk, hend⟩ := h
  exact ⟨v', .look hout (by simpa only [graph, List.append_nil] using hwalk), hend⟩

theorem flag_look (hno : ¬ Accepting net t) (ha : accepted = true ↔ t.alternative ∈ v.matched) :
    accepted = true ↔ t.alternative ∈ ((graph net).look v t).matched := by
  rw [mem_look_matched, ha]
  exact (or_iff_left fun h => hno h.1).symm

theorem Shows.look_onward (h : Shows f v) (hst : net.states[t.state]? = some st)
    (hns : st.isRuleStop = false) :
    Shows (if st.isSilent then { f with seen := f.seen.insert t.stack.length t }
      else Front.add { f with seen := f.seen.insert t.stack.length t } t)
      ((graph net).look v t) := by
  have hwaits := waits_iff hst
  cases hsilent : st.isSilent with
  | true =>
    have hlook := h.look net t (.inr ⟨by simp [hwaits, hns, hsilent], rfl⟩)
    simpa using hlook
  | false => exact h.look net t (.inl ⟨by simp [hwaits, hns, hsilent], rfl⟩)

/-- The loop over the edges of a thread is the walk through the threads ahead, if closing over one
of these is. -/
theorem walks_edges {es : List Edge}
    (hnext : ∀ {u : Thread} {v : Visit} {accepted matched : Bool} {f f' : Front},
      u.alternative = t.alternative → ¬ (accepted = true ∧ u.passedNonGreedy = true) → Shows f v →
      (accepted = true ↔ t.alternative ∈ v.matched) → close net fuel u accepted f = .ok
      (matched, f') →
      Walks net [u] t.alternative v (accepted || matched) f')
    (hs : Shows f v) (ha : accepted = true ↔ t.alternative ∈ v.matched)
    (hc : es.foldlM (fun (accepted, front) e => do
      let ahead ← net.state e.target
      match t.along (t.passedNonGreedy || ahead.isNonGreedy) e with
      | none => return (accepted, front)
      | some next =>
        if accepted && next.passedNonGreedy then return (accepted, front)
        let (matched, front) ← close net fuel next accepted front
        return (accepted || matched, front)) (accepted, f) = .ok (matched, f')) :
    Walks net (es.filterMap fun e =>
      t.along (t.passedNonGreedy || nonGreedyAt net e.target) e) t.alternative v matched
      f' := by
  induction es generalizing accepted f v with
  | nil =>
    obtain ⟨rfl, rfl⟩ := Prod.mk.inj (pure_eq_ok.1 hc)
    exact ⟨v, .done, hs, ha⟩
  | cons e es ih =>
    rw [List.foldlM_cons, bind_eq_ok] at hc
    obtain ⟨⟨sofar, mid⟩, hfirst, hrest⟩ := hc
    simp only [bind_eq_ok, state_eq_ok] at hfirst
    obtain ⟨ahead, hahead, hfirst⟩ := hfirst
    rw [List.filterMap_cons, nonGreedyAt_eq hahead]
    split at hfirst
    · rename_i hnone
      obtain ⟨rfl, rfl⟩ := Prod.mk.inj (pure_eq_ok.1 hfirst)
      rw [hnone]
      exact ih hs ha hrest
    · rename_i next hsome
      rw [hsome]
      obtain ⟨halt, -⟩ := along_cases hsome
      split at hfirst
      · -- the thread is left out on both sides
        rename_i hout
        obtain ⟨rfl, rfl⟩ := Prod.mk.inj (pure_eq_ok.1 hfirst)
        rw [Bool.and_eq_true] at hout
        obtain ⟨v', hwalk, hend⟩ := ih hs ha hrest
        exact ⟨v', .pass (.inr ⟨halt ▸ ha.1 hout.1, hout.2⟩) hwalk, hend⟩
      · rename_i hin
        simp only [bind_eq_ok, pure_eq_ok, Prod.exists, Prod.mk.injEq] at hfirst
        obtain ⟨found, front, hclose, rfl, rfl⟩ := hfirst
        obtain ⟨mid, hwalk, hs', ha'⟩ := hnext halt (by simpa using hin) hs ha hclose
        obtain ⟨v', hwalk', hend⟩ := ih hs' ha' hrest
        exact ⟨v', hwalk.append hwalk', hend⟩

theorem walks_close (hin : ¬ (accepted = true ∧ t.passedNonGreedy = true)) (hs : Shows f v)
    (ha : accepted = true ↔ t.alternative ∈ v.matched)
    (hc : close net fuel t accepted f = .ok (matched, f')) :
    Walks net [t] t.alternative v (accepted || matched) f' := by
  induction fuel generalizing t accepted f v matched f' with
  | zero => cases hc
  | succ fuel ih =>
    unfold close at hc
    split at hc
    · rename_i hseen
      obtain ⟨rfl, rfl⟩ := Prod.mk.inj (pure_eq_ok.1 hc)
      rw [Bool.or_false]
      exact ⟨v, .pass (.inl ((hs.seen t).1 hseen)) .done, hs, ha⟩
    rename_i hseen
    have hout : ¬ v.LeavesOut t := by
      rintro (hmem | ⟨hmatched, hmark⟩)
      · exact hseen ((hs.seen t).2 hmem)
      · exact hin ⟨ha.2 hmatched, hmark⟩
    simp only [bind_eq_ok, state_eq_ok] at hc
    obtain ⟨st, hst, hc⟩ := hc
    refine .look hout ?_
    split at hc
    · rename_i hstop
      have hahead := ahead_of_stop hst hstop
      split at hc
      · rename_i hstack
        obtain ⟨rfl, rfl⟩ := Prod.mk.inj (pure_eq_ok.1 hc)
        have haccepts : Accepting net t := (accepting_iff hst).2 ⟨hstack, hstop⟩
        rw [hstack] at hahead
        rw [hahead]
        refine ⟨_, .done, hs.look net t (.inl ⟨(waits_iff hst).2 (.inl ⟨hstack, hstop⟩), rfl⟩), ?_⟩
        rw [Bool.or_true, mem_look_matched]
        exact iff_of_true rfl (.inr ⟨haccepts, rfl⟩)
      · rename_i caller stack hstack
        have hno : ¬ Accepting net t := by simp [accepting_iff hst, hstack]
        have hs' := hs.look net t (.inr ⟨by simp [waits_iff hst, hstack, hstop], rfl⟩)
        rw [List.append_nil] at hs'
        rw [hstack] at hahead
        rw [hahead]
        exact ih (t := { t with state := caller, stack }) hin hs' (flag_look hno ha) hc
    · rename_i hns
      have hns : st.isRuleStop = false := Bool.not_eq_true _ ▸ hns
      have hno : ¬ Accepting net t := by simp [accepting_iff hst, hns]
      have ha' := flag_look hno ha
      rw [ahead_eq hst hns]
      obtain ⟨v', hwalk, hs', hmatched⟩ :=
        walks_edges (fun {u v accepted matched f f'} halt hin hs ha hc => by
        have := ih hin hs (halt ▸ ha) hc
        rwa [halt] at this) (hs.look_onward hst hns) ha' hc
      refine ⟨v', hwalk, hs', ?_⟩
      rw [Bool.or_eq_true, hmatched]
      exact or_iff_right_of_imp fun h => hwalk.matched_subset (ha'.1 h)

section rounds

theorem walks_sendThrough {es : List Edge} (hone : es.length ≤ 1)
    (hin : ¬ (accepted = true ∧ t.passedNonGreedy = true)) (hs : Shows f v)
    (ha : accepted = true ↔ t.alternative ∈ v.matched)
    (hc : sendThrough net t symbol accepted es f = .ok (matched, f')) :
    Walks net ((es.filter (·.accepts symbol Symbol.minChar Symbol.maxChar)).map fun e =>
      { t with state := e.target })
      t.alternative v (accepted || matched) f' := by
  match es, hone with
  | [], _ =>
    obtain ⟨rfl, rfl⟩ := Prod.mk.inj (pure_eq_ok.1 hc)
    rw [Bool.or_false]
    exact ⟨v, .done, hs, ha⟩
  | [e], _ =>
    rw [sendThrough] at hc
    split at hc
    · rename_i haccepts
      rw [bind_eq_ok] at hc
      obtain ⟨⟨found, front⟩, hclose, hc⟩ := hc
      have hwalks := walks_close (t := { t with state := e.target }) hin hs ha hclose
      rw [List.filter_singleton, haccepts, cond_true, List.map_singleton]
      dsimp only at hc
      split at hc
      · rename_i hfound
        obtain ⟨rfl, rfl⟩ := Prod.mk.inj (pure_eq_ok.1 hc)
        rwa [hfound] at hwalks
      · rename_i hfound
        obtain ⟨rfl, rfl⟩ := Prod.mk.inj (pure_eq_ok.1 hc)
        rwa [Bool.eq_false_of_not_eq_true hfound] at hwalks
    · rename_i haccepts
      obtain ⟨rfl, rfl⟩ := Prod.mk.inj (pure_eq_ok.1 hc)
      rw [List.filter_singleton, Bool.eq_false_of_not_eq_true haccepts, cond_false, List.map_nil,
        Bool.or_false]
      exact ⟨v, .done, hs, ha⟩

/-- The threads wait where there is no choice. -/
def Single (net : Network) (threads : List Thread) : Prop :=
  ∀ t ∈ threads, ∀ st, net.states[t.state]? = some st → st.isRuleStop = false →
    st.followed.length ≤ 1

/-- What a step over a front remembers while the threads are left. Of their alternatives, the one
that it remembers is the one that has matched, and no alternative that it remembers comes after
theirs. -/
structure Remembers (found : Option Nat) (v : Visit) (threads : List Thread) : Prop where
  matched : ∀ t ∈ threads, found = some t.alternative ↔ t.alternative ∈ v.matched
  le : ∀ i, found = some i → ∀ t ∈ threads, i ≤ t.alternative

theorem Remembers.tail (h : Remembers found v (t :: threads)) : Remembers found v threads where
  matched u hu := h.matched u (List.mem_cons_of_mem _ hu)
  le i hi u hu := h.le i hi u (List.mem_cons_of_mem _ hu)

theorem Remembers.sent (h : Remembers found v (t :: threads))
    (hafter : ∀ u ∈ threads, t.alternative ≤ u.alternative)
    (hold : v.matched ⊆ w.matched) (hnew : ∀ i ∈ w.matched, i ∈ v.matched ∨ i = t.alternative)
    (ha : ((found == some t.alternative) || matched) = true ↔ t.alternative ∈ w.matched) :
    Remembers (if matched then some t.alternative else found) w threads where
  matched u hu := by
    by_cases heq : u.alternative = t.alternative
    · rw [heq, ← ha, Bool.or_eq_true, beq_iff_eq]
      cases matched <;> simp
    · have hsame : u.alternative ∈ w.matched ↔ found = some u.alternative := by
        rw [h.tail.matched u hu]
        exact ⟨fun hmem => (hnew _ hmem).resolve_right heq, fun hmem => hold hmem⟩
      rw [hsame]
      cases matched with
      | false => rfl
      | true =>
        refine ⟨fun heq' => absurd (Option.some.inj heq').symm heq, fun hfound => ?_⟩
        exact absurd (Nat.le_antisymm (h.le _ hfound t List.mem_cons_self) (hafter u hu)) heq
  le i hi u hu := by
    split at hi
    · exact Option.some.inj hi ▸ hafter u hu
    · exact h.tail.le i hi u hu

def sendThread (net : Network) (symbol : Int) :
    Option Nat × Front → Thread → Except Fault (Option Nat × Front)
  | (matchedAlternative, front), t => do
    let accepted := matchedAlternative == some t.alternative
    if accepted && t.passedNonGreedy then return (matchedAlternative, front)
    let st ← net.state t.state
    if st.isRuleStop then return (matchedAlternative, front)
    let (matched, front) ← sendThrough net t symbol accepted st.followed front
    return (if matched then some t.alternative else matchedAlternative, front)

theorem walk_of_sendThread (hone : Single net [t])
    (hafter : ∀ u ∈ threads, t.alternative ≤ u.alternative) (hs : Shows f v)
    (hr : Remembers found v (t :: threads))
    (hc : sendThread net symbol (found, f) t = .ok (found', f')) :
    ∃ v', Walk (graph net) (sends net symbol t) v v' ∧ Shows f' v' ∧
      Remembers found' v' threads := by
  -- a thread that nothing is sent from leaves all as it is
  have skip (hsends : ∀ u ∈ sends net symbol t, v.LeavesOut u) (heq : (found, f) = (found', f')) :
      ∃ v', Walk (graph net) (sends net symbol t) v v' ∧ Shows f' v' ∧
          Remembers found' v' threads := by
    obtain ⟨rfl, rfl⟩ := Prod.mk.inj heq
    exact ⟨v, Walk.of_leavesOut hsends, hs, hr.tail⟩
  have hfound := hr.matched t List.mem_cons_self
  dsimp only [sendThread] at hc
  split at hc
  · rename_i hout
    rw [Bool.and_eq_true, beq_iff_eq] at hout
    refine skip (fun u hu => .inr ?_) (pure_eq_ok.1 hc)
    rw [sends_keeps hu]
    exact ⟨hfound.1 hout.1, hout.2⟩
  rename_i hin
  rw [Bool.and_eq_true] at hin
  simp only [bind_eq_ok, state_eq_ok] at hc
  obtain ⟨st, hst, hc⟩ := hc
  split at hc
  · rename_i hstop
    refine skip (fun u hu => ?_) (pure_eq_ok.1 hc)
    obtain ⟨st', -, hst', hns, -⟩ := sends_cases hu
    rw [Option.some.inj (hst.symm.trans hst'), hns] at hstop
    cases hstop
  · rename_i hns
    have hns : st.isRuleStop = false := Bool.not_eq_true _ ▸ hns
    simp only [bind_eq_ok, pure_eq_ok, Prod.exists, Prod.mk.injEq] at hc
    obtain ⟨matched, front, hsend, rfl, rfl⟩ := hc
    have ha : (found == some t.alternative) = true ↔ t.alternative ∈ v.matched := by
      rw [beq_iff_eq, hfound]
    obtain ⟨w, hwalk, hs', ha'⟩ :=
      walks_sendThrough (hone t List.mem_cons_self st hst hns) hin hs ha hsend
    rw [← sends_eq hst hns] at hwalk
    refine ⟨w, hwalk, hs', hr.sent hafter hwalk.matched_subset (fun i hi => ?_) ha'⟩
    obtain hold | ⟨u, hu, heq⟩ := hwalk.matched_of (fun _ _ hu => (ahead_keeps hu).1) hi
    · exact .inl hold
    · rw [← heq, sends_keeps hu]
      exact .inr rfl

theorem walk_of_steps (hone : Single net threads) (horder : InOrder threads) (hs : Shows f v)
    (hr : Remembers found v threads)
    (hc : threads.foldlM (sendThread net symbol) (found, f) = .ok (found', f')) :
    ∃ v', Walk (graph net) (threads.flatMap (sends net symbol)) v v' ∧ Shows f' v' := by
  induction threads generalizing found f v with
  | nil =>
    obtain ⟨-, rfl⟩ := Prod.mk.inj (pure_eq_ok.1 hc)
    exact ⟨v, .done, hs⟩
  | cons t threads ih =>
    rw [List.foldlM_cons, bind_eq_ok] at hc
    obtain ⟨⟨sofar, mid⟩, hfirst, hrest⟩ := hc
    rw [InOrder, List.pairwise_cons] at horder
    have hone' : Single net threads := fun u hu => hone u (List.mem_cons_of_mem _ hu)
    obtain ⟨w, hwalk, hs', hr'⟩ :=
      walk_of_sendThread
        (fun u hu => hone u (List.mem_singleton.1 hu ▸ List.mem_cons_self)) horder.1 hs hr hfirst
    obtain ⟨v', hwalk', hend⟩ := ih hone' horder.2 hs' hr' hrest
    rw [List.flatMap_cons]
    exact ⟨v', hwalk.append hwalk', hend⟩

theorem walk_of_step (hone : Single net threads) (horder : InOrder threads)
    (hc : step net threads symbol = .ok f) :
    ∃ v, Walk (graph net) (threads.flatMap (sends net symbol)) {} v ∧ Shows f v := by
  rw [step, bind_eq_ok] at hc
  obtain ⟨⟨found, f'⟩, hc, hf⟩ := hc
  obtain rfl := pure_eq_ok.1 hf
  exact walk_of_steps hone horder Shows.start ⟨fun t _ => by simp, by simp⟩ hc

theorem walk_of_starts {l : List (Edge × Nat)} {b : Bool} (hnodup : (l.map Prod.snd).Nodup)
    (hs : Shows f v)
    (hnew : ∀ p ∈ l, p.2 ∉ v.matched)
    (hc : l.foldlM (fun front (e, alternative) => do
      let t : Thread := { state := e.target, alternative, passedNonGreedy := b }
      let (_, front) ← close net (closeBound net) t false front
      return front) f = .ok f') :
    ∃ v', Walk (graph net) (l.map fun (e, alternative) =>
      { state := e.target, alternative, passedNonGreedy := b }) v v' ∧
      Shows f' v' := by
  induction l generalizing f v with
  | nil => exact ⟨v, .done, pure_eq_ok.1 hc ▸ hs⟩
  | cons p l ih =>
    obtain ⟨e, i⟩ := p
    rw [List.foldlM_cons, bind_eq_ok] at hc
    obtain ⟨mid, hfirst, hrest⟩ := hc
    simp only [bind_eq_ok, pure_eq_ok, Prod.exists] at hfirst
    obtain ⟨matched, front, hclose, rfl⟩ := hfirst
    rw [List.map_cons, List.nodup_cons] at hnodup
    obtain ⟨hfirst, hnew⟩ := List.forall_mem_cons.1 hnew
    obtain ⟨mid, hwalk, hs', -⟩ := walks_close (by simp) hs (by simpa using hfirst) hclose
    have hstill : ∀ p ∈ l, p.2 ∉ mid.matched := fun p hp hmem => by
      obtain hmem | ⟨u, hu, heq⟩ := hwalk.matched_of (fun _ _ hu => (ahead_keeps hu).1) hmem
      · exact hnew p hp hmem
      · rw [List.mem_singleton.1 hu] at heq
        obtain rfl : i = p.2 := heq
        exact hnodup.1 (List.mem_map.2 ⟨p, hp, rfl⟩)
    obtain ⟨v', hwalk', hend⟩ := ih hnodup.2 hs' hstill hrest
    exact ⟨v', hwalk.append hwalk', hend⟩

/-- The front at the start of a match is a walk over the threads that the mode begins with. -/
theorem walk_of_start (hc : start net mode = .ok f) :
    ∃ v, Walk (graph net) (roots net mode) {} v ∧ Shows f v := by
  simp only [start, bind_eq_ok, Fault.ofLookup_eq_ok, state_eq_ok] at hc
  obtain ⟨s, hs, st, hst, hc⟩ := hc
  have hroots : roots net mode = st.edges.zipIdx.map fun (e, alternative) =>
      { state := e.target, alternative, passedNonGreedy := st.isNonGreedy } := by
    rw [roots, hs, Option.bind_some, hst]
  rw [hroots]
  refine walk_of_starts ?_ Shows.start (by simp) hc
  rw [List.zipIdx_map_snd]
  exact List.nodup_range'

theorem inOrder_roots : InOrder (roots net mode) := by
  unfold roots
  split
  · exact List.Pairwise.nil
  · rename_i st _
    have hsorted : (st.edges.zipIdx.map Prod.snd).Pairwise (· ≤ ·) := by
      rw [List.zipIdx_map_snd]
      exact List.pairwise_le_range'
    exact List.pairwise_map.2 (List.pairwise_map.1 hsorted)

theorem InOrder.sends (h : InOrder threads) : InOrder (threads.flatMap (sends net symbol)) := by
  refine List.pairwise_flatMap.2
    ⟨fun t _ => List.pairwise_of_forall_mem_list fun a ha b hb => ?_, h.imp ?_⟩
  · rw [sends_keeps ha, sends_keeps hb]
  · intro t u htu a ha b hb
    rw [sends_keeps ha, sends_keeps hb]
    exact htu

end rounds

end GrammarWalk.Tokenizer
