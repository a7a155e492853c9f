import GrammarWalk.Proofs.Network.SameRuns
import GrammarWalk.Proofs.Tokenizer.Agree

/-! A lexer before and after the edges of one state are exchanged: an edge makes room for the one
edge of a state that only passes on, and a call for the one match of its rule. Threads that have one
way on without input are passed over, and a thread at a match that stands for a call goes as the
thread in the called rule does. -/

namespace GrammarWalk.Tokenizer

open Network Relation

/-- The new state `fresh` has the match of the rule that `c` calls, and goes on where the call
does. -/
structure StandsFor (a b : Network) (c : Call) (fresh : Nat) : Prop where
  beyond : a.states.size ≤ fresh
  start : c.start < a.states.size
  follow : c.follow < a.states.size
  sole : ∃ stop m r, a.Sole stop c.start m ∧ (∃ z, a.states[stop]? = some z ∧ z.isRuleStop = true) ∧
    b.states[fresh]? = some (.matching fresh r (m.retarget c.follow))

/-- What comes in place of an edge of state `s`. -/
inductive Exchanged (a : Network) (s : Nat) (stand : Nat → Option Call) : Edge → Edge → Prop
  | keep {e : Edge} : Exchanged a s stand e e
  | splice {e hop : Edge} {mid : State} : a.Splices s e mid → mid.followed = [hop] →
      Exchanged a s stand e (.plain hop.target)
  | inline {c : Call} {fresh : Nat} : stand fresh = some c →
      Exchanged a s stand (.call c) (.plain fresh)

/-- `b` is `a` with the edges of state `s` exchanged. The new states that stand for calls are those
in `stand`. -/
structure Exchange (a b : Network) (s : Nat) (st : State) (es' : List Edge)
    (stand : Nat → Option Call) : Prop extends Grows a b s st es' where
  edges : List.Forall₂ (Exchanged a s stand) st.followed es'
  stands : ∀ {n c}, stand n = some c → .call c ∈ st.followed ∧ StandsFor a b c n

/-- What an exchange of edges relies on. -/
structure Tame (net : Network) : Prop where
  wired : net.Wired
  matchesRaw : net.MatchesRaw
  greedy : ∀ {s : Nat} {st : State} {e : Edge}, net.states[s]? = some st → st.isRuleStop = false →
    st.followed = [e] → st.isNonGreedy = false

variable {a b : Network} {s x y n : Nat} {st : State} {es' : List Edge} {stand : Nat → Option Call}
  {t u v : Thread}
  {e e' : Edge} {c : Call} {symbol : Int} {mode : Nat}

section settle

/-- The state has one way on without input, from which a search comes to one where this is not so,
or it is passed over by an edge of `s`. -/
def Idle (a : Network) (s x : Nat) : Prop :=
  x ≠ s ∧ (∃ y, a.Hop x y) ∧
    ((∃ z, a.Skips x z ∧ ∀ y, ¬ a.Hop z y) ∨ ∃ e mid, a.Splices s e mid ∧ e.target = x)

/-- The thread has one way on, and a search can do without it. -/
def Through (a : Network) (s : Nat) (t : Thread) : Prop :=
  (∃ st, a.states[t.state]? = some st ∧ st.isRuleStop = true ∧ t.stack ≠ []) ∨ Idle a s t.state

/-- The thread `t` goes on to `u` in `n` moves that a search can do without. -/
inductive Settles (a : Network) (s : Nat) : Nat → Thread → Thread → Prop
  | here {t : Thread} : ¬ Through a s t → Settles a s 0 t t
  | on {n : Nat} {t u v : Thread} : Through a s t → ahead a t = [u] → Settles a s n u v →
      Settles a s (n + 1) t v

theorem ahead_of_hop (h : a.Hop t.state y) :
    ahead a t =
      [{ t with state := y, passedNonGreedy := t.passedNonGreedy || nonGreedyAt a y }] := by
  obtain ⟨st, r, hst, hns, -, hf⟩ := h
  rw [ahead_eq hst hns, hf]
  rfl

theorem Hop.not_stop (h : a.Hop x y) (hst : a.states[x]? = some st) : st.isRuleStop = false := by
  obtain ⟨st', -, hst', hns, -⟩ := h
  exact Option.some.inj (hst.symm.trans hst') ▸ hns

theorem not_through_of_hop (h : a.Hop t.state y) (hidle : ¬ Idle a s t.state) :
    ¬ Through a s t := by
  rintro (⟨st, hst, hstop, -⟩ | hidle')
  · rw [Hop.not_stop h hst] at hstop
    cases hstop
  · exact hidle hidle'

theorem not_waits_of_through (h : Through a s t) : ¬ Waits a t ∧ ¬ Accepting a t := by
  obtain ⟨st', hst, hstop, hstack⟩ | ⟨-, ⟨y, st', r, hst, hns, hsilent, hf⟩, -⟩ := h
  · simp [Tokenizer.waits_iff hst, Tokenizer.accepting_iff hst, hstop, hstack]
  · simp [Tokenizer.waits_iff hst, Tokenizer.accepting_iff hst, hns, hsilent]

theorem exists_ahead (h : Through a s t) : ∃ u, ahead a t = [u] := by
  obtain ⟨st', hst, hstop, hstack⟩ | ⟨-, ⟨y, hhop⟩, -⟩ := h
  · obtain ⟨q, stack, hcons⟩ := List.exists_cons_of_ne_nil hstack
    exact ⟨{ t with state := q, stack }, by rw [ahead_of_stop hst hstop, hcons]⟩
  · exact ⟨_, ahead_of_hop hhop⟩

theorem lt_of_through (h : Through a s t) : t.state < a.states.size := by
  obtain ⟨st', hst, -⟩ | ⟨-, ⟨y, st', r, hst, -⟩, -⟩ := h
  · exact lt_size hst
  · exact lt_size hst

theorem not_through_of_refused (h : Refused a t) : ¬ Through a s t := by
  obtain ⟨-, st, c, hst, hns, hcall⟩ := h
  rintro (⟨st', hst', hstop, -⟩ | ⟨-, ⟨y, st', r, hst', -, -, hf⟩, -⟩)
  · rw [Option.some.inj (hst.symm.trans hst'), hstop] at hns
    cases hns
  · rw [Option.some.inj (hst.symm.trans hst'), hf, List.mem_singleton] at hcall
    cases hcall

theorem Settles.det {k : Nat} (h : Settles a s n t u) (h' : Settles a s k t v) : n = k ∧ u = v := by
  induction h generalizing k with
  | here hnot =>
    cases h' with
    | here => exact ⟨rfl, rfl⟩
    | on hthrough => exact absurd hthrough hnot
  | on hthrough hahead _ ih =>
    cases h' with
    | here hnot => exact absurd hthrough hnot
    | on _ hahead' h' =>
      obtain rfl := (List.cons.inj (hahead.symm.trans hahead')).1
      obtain ⟨rfl, rfl⟩ := ih h'
      exact ⟨rfl, rfl⟩

theorem exists_settles (a : Network) (s : Nat) (t : Thread) : ∃ n u, Settles a s n t u := by
  induction hk : t.stack.length using Nat.strong_induction_on generalizing t with
  | _ k ih =>
    -- the calls that are open say how far a rule stop leads back
    have stop {t : Thread} (hk : t.stack.length = k) (hidle : ¬ Idle a s t.state) :
        ∃ n u, Settles a s n t u := by
      by_cases hthrough : Through a s t
      · obtain ⟨st, hst, hstop, hstack⟩ := hthrough.resolve_right hidle
        obtain ⟨caller, stack, hcons⟩ := List.exists_cons_of_ne_nil hstack
        rw [hcons, List.length_cons] at hk
        obtain ⟨n, u, hu⟩ := ih stack.length (by omega) { t with state := caller, stack } rfl
        exact ⟨n + 1, u, .on hthrough (by rw [ahead_of_stop hst hstop, hcons]) hu⟩
      · exact ⟨0, t, .here hthrough⟩
    have hop {t : Thread} {y : Nat} (h : a.Hop t.state y)
        (hnext : ∀ u : Thread, u.state = y → u.stack = t.stack → ∃ n v, Settles a s n u v) :
            ∃ n u, Settles a s n t u := by
      by_cases hidle : Idle a s t.state
      · obtain ⟨n, v, hv⟩ := hnext
          { t with state := y, passedNonGreedy := t.passedNonGreedy || nonGreedyAt a y } rfl rfl
        exact ⟨n + 1, v, .on (.inr hidle) (ahead_of_hop h) hv⟩
      · exact ⟨0, t, .here (not_through_of_hop h hidle)⟩
    have skips {x z : Nat} (h : a.Skips x z) (hz : ∀ y, ¬ a.Hop z y) :
        ∀ t : Thread, t.state = x → t.stack.length = k → ∃ n u, Settles a s n t u := by
      induction h using ReflTransGen.head_induction_on with
      | refl =>
        rintro t rfl hk
        exact stop hk fun hidle => hidle.2.1.elim hz
      | head hfirst _ ih' =>
        rintro t rfl hk
        exact hop hfirst fun u hu hstack => ih' u hu (by rw [hstack, hk])
    -- behind a state that is passed over there are fewer such states
    have all (d : Nat) : ∀ t : Thread, a.behind t.state = d → t.stack.length = k →
        ∃ n u, Settles a s n t u := by
      induction d using Nat.strong_induction_on with
      | _ d ih' =>
        rintro t rfl hk
        by_cases hidle : Idle a s t.state
        · obtain ⟨hne, ⟨y, hy⟩, ⟨z, hz, hend⟩ | ⟨e, mid, hmid, he⟩⟩ := id hidle
          · exact skips hz hend t rfl hk
          · refine hop hy fun u hu hstack => ih' _ ?_ u rfl (by rw [hstack, hk])
            obtain ⟨st, r, hst, -, -, hf⟩ := hy
            have hst' := hmid.state
            rw [he, hst] at hst'
            obtain rfl := Option.some.inj hst'
            have hpass : passesOn st = true := by
              simpa [passesOn, hmid.basic, hmid.silent] using hmid.hops
            rw [hu]
            exact behind_lt hst hpass (he ▸ hmid.clear) (e := .epsilon y r) (by simp [hf])
        · exact stop hk hidle
    exact all _ t rfl hk

end settle

section rest

/-- How many moves from a thread a search can do without. -/
noncomputable def steps (a : Network) (s : Nat) (t : Thread) : Nat := (exists_settles a s t).choose

/-- The thread behind them. -/
noncomputable def settled (a : Network) (s : Nat) (t : Thread) : Thread :=
  (exists_settles a s t).choose_spec.choose

theorem settles_settled : Settles a s (steps a s t) t (settled a s t) :=
  (exists_settles a s t).choose_spec.choose_spec

theorem settled_eq (h : ¬ Through a s t) : settled a s t = t := (settles_settled.det (.here h)).2

theorem settled_on (h : Through a s t) (hahead : ahead a t = [u]) :
    settled a s t = settled a s u ∧ steps a s t = steps a s u + 1 :=
  (settles_settled.det (.on h hahead settles_settled)).symm

/-- A thread goes on to one of its alternative that has been through the decisions that it has been
through. -/
theorem settled_keeps : (settled a s t).alternative = t.alternative ∧
    (t.passedNonGreedy = true → (settled a s t).passedNonGreedy = true) := by
  have key {n : Nat} {u : Thread} (h : Settles a s n t u) : u.alternative = t.alternative ∧
      (t.passedNonGreedy = true → u.passedNonGreedy = true) := by
    induction h with
    | here => exact ⟨rfl, id⟩
    | on _ hahead _ ih =>
      have hfirst := ahead_keeps (hahead ▸ List.mem_singleton.2 rfl)
      exact ⟨ih.1.trans hfirst.1, ih.2 ∘ hfirst.2⟩
  exact key settles_settled

/-- A thread at a new state that stands for a call, as it would be behind the call. -/
def standIn (stand : Nat → Option Call) (t : Thread) : Thread :=
  match stand t.state with
  | some c => { t with state := c.start, stack := c.follow :: t.stack }
  | none => t

/-- The thread that a thread goes on to, in the called rule if the thread stands for a call. -/
noncomputable def standing (a : Network) (s : Nat) (stand : Nat → Option Call) (t : Thread) :
    Thread :=
  settled a s (standIn stand t)

theorem standing_keeps : (standing a s stand t).alternative = t.alternative ∧
    (t.passedNonGreedy = true → (standing a s stand t).passedNonGreedy = true) := by
  have h := settled_keeps (a := a) (s := s) (t := standIn stand t)
  unfold standIn at h
  unfold standing standIn
  split <;> simp_all

end rest

/-- The thread and its calls are at states of the network. -/
structure Inside (a : Network) (t : Thread) : Prop where
  state : t.state < a.states.size
  stack : ∀ q ∈ t.stack, q < a.states.size

theorem Inside.exists_state (h : Inside a t) : ∃ old, a.states[t.state]? = some old :=
  ⟨_, Array.getElem?_eq_getElem h.state⟩

theorem Inside.along {p : Bool} (h : Inside a t) (he : e.Within a.states.size)
    (hu : t.along p e = some u) : Inside a u := by
  obtain ⟨-, -, ⟨c, rfl, hstate, hstack⟩ | ⟨-, hstate, hstack⟩⟩ := along_cases hu
  · exact ⟨hstate ▸ he.1, hstack ▸ List.forall_mem_cons.2 ⟨he.2 c rfl, h.stack⟩⟩
  · exact ⟨hstate ▸ he.1, hstack ▸ h.stack⟩

theorem Inside.ahead (hw : a.Wired) (h : Inside a t) (hu : u ∈ ahead a t) : Inside a u := by
  obtain ⟨st, caller, stack, -, -, hstack, rfl⟩ | ⟨st, e, hst, -, he, halong⟩ := ahead_cases hu
  · obtain ⟨hcaller, hrest⟩ := List.forall_mem_cons.1 (hstack ▸ h.stack)
    exact ⟨hcaller, hrest⟩
  · exact h.along ((hw.within hst).followed e he) halong

section single

theorem along_of_loud {p : Bool} (he : e.isSilent = false) : t.along p e = none := by
  cases e <;> first | rfl | cases he

theorem ahead_of_match (hst : a.states[t.state]? = some st) (hns : st.isRuleStop = false)
    (hf : st.followed = [e]) (he : e.isSilent = false) : ahead a t = [] := by
  rw [ahead_eq hst hns, hf, List.filterMap_cons, along_of_loud he, List.filterMap_nil]

theorem sends_of_match (hst : a.states[t.state]? = some st) (hns : st.isRuleStop = false)
    (hf : st.followed = [e]) :
    sends a symbol t =
      if e.accepts symbol Symbol.minChar Symbol.maxChar then [{ t with state := e.target }]
      else [] := by
  rw [sends_eq hst hns, hf, List.filter_singleton]
  cases e.accepts symbol Symbol.minChar Symbol.maxChar <;> rfl

theorem Tame.nonGreedyAt_eq (ha : Tame a) (hst : a.states[x]? = some st)
    (hns : st.isRuleStop = false) (hf : st.followed = [e]) : nonGreedyAt a x = false :=
  (Tokenizer.nonGreedyAt_eq hst).trans (ha.greedy hst hns hf)

theorem nonGreedyAt_stop (hst : a.states[x]? = some st) (hstop : st.isRuleStop = true) :
    nonGreedyAt a x = false := by
  rw [State.isRuleStop, beq_iff_eq] at hstop
  rw [Tokenizer.nonGreedyAt_eq hst, State.isNonGreedy, hstop]
  rfl

theorem Tame.nonGreedyAt_of_skips (ha : Tame a) (h : a.Skips x y) (hst : a.states[y]? = some st)
    (hns : st.isRuleStop = false) (hf : st.followed = [e]) : nonGreedyAt a x = false := by
  obtain rfl | ⟨z, ⟨st', r, hst', hns', -, hf'⟩, -⟩ := h.cases_head
  · exact ha.nonGreedyAt_eq hst hns hf
  · exact ha.nonGreedyAt_eq hst' hns' hf'

theorem not_hop_of_match (hst : a.states[x]? = some st) (hf : st.followed = [e])
    (he : e.isSilent = false) : ¬ a.Hop x y := by
  rintro ⟨st', r, hst', -, -, hf'⟩
  obtain rfl := Option.some.inj (hst.symm.trans hst')
  rw [hf] at hf'
  obtain rfl := (List.cons.inj hf').1
  cases he

end single

theorem filterMap_eq_of_forall₂ {es : List Edge} {next next' : Edge → Option Thread}
    (h : List.Forall₂ (fun e e' => next' e' = next e) es es') :
    es'.filterMap next' = es.filterMap next := by
  induction h with
  | nil => rfl
  | cons he _ ih => rw [List.filterMap_cons, List.filterMap_cons, he, ih]

/-- The threads wait in front of matches that lead on to the same. -/
structure MatchAlike (b : Network) (rest : Thread → Thread) (t v : Thread) : Prop where
  mark : v.passedNonGreedy = t.passedNonGreedy
  ahead : ahead b t = [] ∧ ahead b v = []
  waits : Waits b t ∧ Waits b v
  accepts : ¬ Accepting b t ∧ ¬ Accepting b v
  sends : ∀ symbol, (sends b symbol t).map rest = (sends b symbol v).map rest

theorem filter_accepts_eq {es : List Edge} (h : List.Forall₂ (Exchanged a s stand) es es')
    {v lo hi : Int} : es.filter (·.accepts v lo hi) = es'.filter (·.accepts v lo hi) := by
  induction h with
  | nil => rfl
  | @cons e e' es es' he _ ih =>
    rw [List.filter_cons, List.filter_cons, ih]
    cases he with
    | keep => rfl
    | splice hs => rw [Edge.not_accepts_of_isSilent (Edge.isSilent_of_isPlain hs.plain).1]; rfl
    | inline => rfl

/-- What the searches do that follow the exchanged edges, by the threads that theirs go on to. -/
noncomputable def joint (a b : Network) (s : Nat) (stand : Nat → Option Call) : Machine where
  ahead t := (ahead b t).map (standing a s stand)
  waits := Waits b
  accepts := Accepting b
  roots mode := (roots a mode).map (standing a s stand)
  sends symbol t := (sends b symbol t).map (standing a s stand)

theorem inside_roots (hw : a.Wired) (ht : t ∈ roots a mode) : Inside a t := by
  obtain ⟨s, st, e, hst, he, hstate, hstack⟩ := roots_cases ht
  exact ⟨hstate ▸ ((hw.within hst).edges e he).1, hstack ▸ nofun⟩

theorem Inside.sends (hw : a.Wired) (h : Inside a t) (hu : u ∈ sends a symbol t) : Inside a u := by
  obtain ⟨st, e, hst, -, he, -, rfl⟩ := sends_cases hu
  exact ⟨((hw.within hst).followed e he).1, h.stack⟩

/-- The thread is at a state of the network or at one that stands for a call, and its calls are at
states of the network. -/
structure Reached (a : Network) (stand : Nat → Option Call) (t : Thread) : Prop where
  state : t.state < a.states.size ∨ ∃ c, stand t.state = some c
  stack : ∀ q ∈ t.stack, q < a.states.size

theorem Inside.reached (h : Inside a t) : Reached a stand t := ⟨.inl h.state, h.stack⟩

namespace Exchange

variable (hx : Exchange a b s st es' stand)
include hx

theorem nonGreedyAt_eq (hlt : x < a.states.size) : nonGreedyAt b x = nonGreedyAt a x := by
  have hst := Array.getElem?_eq_getElem hlt
  obtain ⟨l, hl⟩ := hx.old hst
  rw [Tokenizer.nonGreedyAt_eq hst, Tokenizer.nonGreedyAt_eq hl]
  rfl

theorem accepting_iff (hlt : t.state < a.states.size) : Accepting b t ↔ Accepting a t := by
  have hst := Array.getElem?_eq_getElem hlt
  obtain ⟨l, hl⟩ := hx.old hst
  rw [Tokenizer.accepting_iff hst, Tokenizer.accepting_iff hl]
  rfl

theorem waits_iff (hlt : t.state < a.states.size) : Waits b t ↔ Waits a t := by
  have hst := Array.getElem?_eq_getElem hlt
  obtain ⟨l, hl⟩ := hx.old hst
  rw [Tokenizer.waits_iff hst, Tokenizer.waits_iff hl]
  rfl

theorem roots_eq (mode : Nat) (hw : a.Wired) : roots b mode = roots a mode := by
  have hmodes : b.modes = a.modes := by rw [hx.tables]
  unfold roots
  rw [hmodes]
  cases hmode : a.modes[mode]? with
  | none => rfl
  | some s =>
    obtain ⟨st, hst, -⟩ := hw.mode hmode
    obtain ⟨l, hl⟩ := hx.old hst
    rw [Option.bind_some, Option.bind_some, hst, hl]
    rfl

theorem standIn_eq (hlt : t.state < a.states.size) : standIn stand t = t := by
  unfold standIn
  split
  · rename_i c hc
    have := (hx.stands hc).2.beyond
    omega
  · rfl

theorem standing_eq (hlt : t.state < a.states.size) : standing a s stand t = settled a s t := by
  rw [standing, hx.standIn_eq hlt]

theorem ahead_eq (ha : Tame a) (h : Inside a t) (hkept : t.state = s → st.isRuleStop = true) :
    ahead b t = ahead a t := by
  obtain ⟨old, hst⟩ := h.exists_state
  cases hstop : old.isRuleStop with
  | true =>
    obtain ⟨l, hl⟩ := hx.old hst
    rw [ahead_of_stop hst hstop, ahead_of_stop hl hstop]
  | false =>
    have hne : t.state ≠ s := fun heq => by
      obtain rfl := Option.some.inj (hst.symm.trans (heq ▸ hx.state))
      rw [hstop] at hkept
      cases hkept heq
    rw [Tokenizer.ahead_eq hst hstop, Tokenizer.ahead_eq (hx.kept hst hne) hstop]
    refine List.filterMap_congr fun e he => ?_
    rw [hx.nonGreedyAt_eq ((ha.wired.within hst).followed e he).1]

theorem ahead_of_through (ha : Tame a) (h : Inside a t) (ht : Through a s t) :
    ahead b t = ahead a t := by
  refine hx.ahead_eq ha h fun heq => ?_
  obtain ⟨old, hst, hstop, -⟩ | hidle := ht
  · obtain rfl := Option.some.inj (hst.symm.trans (heq ▸ hx.state))
    exact hstop
  · exact absurd heq hidle.1

theorem sends_eq (hlt : t.state < a.states.size) (symbol : Int) :
    sends b symbol t = sends a symbol t := by
  by_cases heq : t.state = s
  · have hst : a.states[t.state]? = some st := heq ▸ hx.state
    have hst' : b.states[t.state]? = some { st with optimized := some es' } := heq ▸ hx.changed
    cases hstop : st.isRuleStop with
    | true =>
      rw [sends, sends, hst, hst']
      exact (if_pos hstop).trans (if_pos hstop).symm
    | false =>
      rw [Tokenizer.sends_eq hst hstop, Tokenizer.sends_eq hst' hstop, filter_accepts_eq hx.edges]
      rfl
  · have hst := Array.getElem?_eq_getElem hlt
    rw [sends, sends, hst, hx.kept hst heq]

theorem ne_of_hop (hstand : stand n = some c) (h : a.Hop x y) : x ≠ s := by
  rintro rfl
  obtain ⟨st', r, hst', -, -, hf⟩ := h
  obtain rfl := Option.some.inj (hst'.symm.trans hx.state)
  have hcall := (hx.stands hstand).1
  rw [hf, List.mem_singleton] at hcall
  cases hcall

/-- Behind a call for which a new state stands, a search goes on to the match of the called rule. -/
theorem exists_match (ha : Tame a) (hstand : stand n = some c) : ∃ mid mst m stop z r,
    a.states[mid]? = some mst ∧ mst.isRuleStop = false ∧ mst.followed = [m] ∧ m.isSilent = false ∧
    a.states[stop]? = some z ∧ z.isRuleStop = true ∧ (m.target = stop ∨ a.Hop m.target stop) ∧
    b.states[n]? = some (.matching n r (m.retarget c.follow)) ∧ nonGreedyAt a c.start = false ∧
    ∀ t : Thread, t.state = c.start → settled a s t = { t with state := mid } := by
  obtain ⟨stop, m, r, hsole, ⟨z, hz, hstop⟩, hnew⟩ := (hx.stands hstand).2.sole
  obtain ⟨mid, mst, hskips, hmst, hns, hf⟩ := hsole.reaches
  have hloud := (Edge.of_isLabelled hsole.labelled).1
  have hend (y : Nat) : ¬ a.Hop mid y := not_hop_of_match hmst hf hloud
  have settle {x : Nat} (h : a.Skips x mid) : ∀ t : Thread, t.state = x →
      settled a s t = { t with state := mid } := by
    induction h using ReflTransGen.head_induction_on with
    | refl =>
      rintro t rfl
      refine settled_eq ?_
      rintro (⟨st', hst', hstop', -⟩ | hidle)
      · rw [Option.some.inj (hmst.symm.trans hst'), hstop'] at hns
        cases hns
      · exact hidle.2.1.elim hend
    | @head x y hhop hrest ih =>
      rintro t rfl
      have hthrough : Through a s t :=
        .inr ⟨hx.ne_of_hop hstand hhop, ⟨y, hhop⟩, .inl ⟨mid, .head hhop hrest, hend⟩⟩
      rw [(settled_on hthrough (ahead_of_hop hhop)).1, ha.nonGreedyAt_of_skips hrest hmst hns hf,
        Bool.or_false, ih _ rfl]
  exact ⟨mid, mst, m, stop, z, r, hmst, hns, hf, hloud, hz, hstop, hsole.ends, hnew,
    ha.nonGreedyAt_of_skips hskips hmst hns hf, settle hskips⟩

theorem along_eq (ha : Tame a) (hns : st.isRuleStop = false) (ht : t.state = s)
    (hplain : ¬ Refused a t) (hmem : e ∈ st.followed) (he : Exchanged a s stand e e') :
    (t.along (t.passedNonGreedy || nonGreedyAt b e'.target) e').map (standing a s stand) =
      (t.along (t.passedNonGreedy || nonGreedyAt a e.target) e).map (standing a s stand) := by
  have hwithin := (ha.wired.within hx.state).followed e hmem
  cases he with
  | keep => rw [hx.nonGreedyAt_eq hwithin.1]
  | @splice _ hop mid hs hf =>
    have hhop : a.Hop e.target hop.target := by
      refine ⟨mid, none, hs.state, hs.not_stop, hs.silent, ?_⟩
      rw [hf, Edge.eq_plain (hs.hops hop (by simp [hf]))]
      rfl
    have hlt := (ha.wired.within hs.state).followed hop (by simp [hf])
    have hgreedy : nonGreedyAt a e.target = false := by
      rw [Tokenizer.nonGreedyAt_eq hs.state, State.isNonGreedy, hs.basic]
      rfl
    have hidle : Idle a s e.target := ⟨hs.other, ⟨_, hhop⟩, .inr ⟨e, mid, hs, rfl⟩⟩
    have halong (p : Bool) : t.along p e =
        some { t with state := e.target, passedNonGreedy := p } := by
      rw [Edge.eq_plain hs.plain]
      rfl
    rw [halong]
    show some (standing a s stand { t with
        state := hop.target, passedNonGreedy := t.passedNonGreedy || nonGreedyAt b hop.target }) =
      some (standing a s stand { t with
        state := e.target, passedNonGreedy := t.passedNonGreedy || nonGreedyAt a e.target })
    have hsettled :=
      (settled_on (t := { t with state := e.target, passedNonGreedy := t.passedNonGreedy || false })
        (.inr hidle) (ahead_of_hop hhop)).1
    rw [hgreedy, hx.nonGreedyAt_eq hlt.1,
      hx.standing_eq (t := { t with state := hop.target, passedNonGreedy := _ }) hlt.1,
      hx.standing_eq (t := { t with state := e.target, passedNonGreedy := _ }) hwithin.1, hsettled,
      Bool.or_false]
  | @inline c fresh hstand =>
    obtain ⟨mid, mst, m, stop, z, r, -, -, -, -, -, -, -, hnew, hgreedy, -⟩ :=
      hx.exists_match ha hstand
    have hroom : ¬ t.stack.length ≥ maxCalls := fun hcalls =>
      hplain ⟨hcalls, st, c, ht ▸ hx.state, hns, hmem⟩
    have halong (p : Bool) : t.along p (.call c) =
        some { t with state := c.start, stack := c.follow :: t.stack, passedNonGreedy := p } :=
          if_neg hroom
    have hfresh : nonGreedyAt b fresh = false := Tokenizer.nonGreedyAt_eq hnew
    rw [halong]
    show some (standing a s stand { t with
        state := fresh, passedNonGreedy := t.passedNonGreedy || nonGreedyAt b fresh }) =
      some (standing a s stand { t with
        state := c.start, stack := c.follow :: t.stack,
          passedNonGreedy := t.passedNonGreedy || nonGreedyAt a c.start })
    rw [hfresh, hgreedy, hx.standing_eq (t := { t with
      state := c.start, stack := c.follow :: t.stack,
        passedNonGreedy := t.passedNonGreedy || false }) hwithin.1,
      standing, standIn]
    simp only [hstand]

theorem map_ahead (ha : Tame a) (h : Inside a t) (hplain : ¬ Refused a t) :
    (ahead b t).map (standing a s stand) = (ahead a t).map (standing a s stand) := by
  by_cases hkept : t.state = s → st.isRuleStop = true
  · rw [hx.ahead_eq ha h hkept]
  · obtain ⟨ht, hns⟩ := Classical.not_imp.1 hkept
    have hns : st.isRuleStop = false := Bool.eq_false_of_not_eq_true hns
    have hst : a.states[t.state]? = some st := ht ▸ hx.state
    have hst' : b.states[t.state]? = some { st with optimized := some es' } := ht ▸ hx.changed
    rw [Tokenizer.ahead_eq hst hns, Tokenizer.ahead_eq hst' hns, List.map_filterMap,
      List.map_filterMap]
    show es'.filterMap _ = _
    refine filterMap_eq_of_forall₂ (List.Forall₂.imp (fun e e' ⟨hmem, he⟩ => ?_)
      ((List.forall₂_and_left ..).2 ⟨fun _ => id, hx.edges⟩))
    exact hx.along_eq ha hns ht hplain hmem he

/-- The thread at the match of a called rule goes on, behind the end of the rule, where the call
does. -/
theorem settled_of_end (hstand : stand n = some c) {stop : Nat} {z : State}
    (hz : a.states[stop]? = some z) (hstop : z.isRuleStop = true) {q : Nat} {stack : List Nat}
    (ht : t.stack = q :: stack) (hend : t.state = stop ∨ a.Hop t.state stop) :
    settled a s t = settled a s { t with state := q, stack } := by
  have back {t : Thread} (hstate : t.state = stop) (ht : t.stack = q :: stack) :
      settled a s t = settled a s { t with state := q, stack } := by
    have hthrough : Through a s t := .inl ⟨z, hstate ▸ hz, hstop, by simp [ht]⟩
    have hahead : ahead a t = [{ t with state := q, stack }] := by
      rw [ahead_of_stop (hstate ▸ hz) hstop, ht]
    exact (settled_on hthrough hahead).1
  obtain hstate | hhop := hend
  · exact back hstate ht
  · have hlast (y : Nat) : ¬ a.Hop stop y := fun h => by
      rw [Hop.not_stop h hz] at hstop
      cases hstop
    have hthrough : Through a s t :=
      .inr ⟨hx.ne_of_hop hstand hhop, ⟨stop, hhop⟩, .inl ⟨stop, .single hhop, hlast⟩⟩
    rw [(settled_on hthrough (ahead_of_hop hhop)).1, nonGreedyAt_stop hz hstop, Bool.or_false]
    exact back (t := { t with state := stop }) rfl ht

/-- A thread at a new state and the one that it goes on to wait in front of matches that lead on to
the same. -/
theorem matchAlike (ha : Tame a) (hstand : stand t.state = some c) :
    MatchAlike b (standing a s stand) t (standing a s stand t) := by
  obtain ⟨mid, mst, m, stop, z, r, hmst, hns, hf, hloud, hz, hstop, hends, hnew, -, hsettled⟩ :=
    hx.exists_match ha hstand
  obtain ⟨hcall, -, -, hfollow, -⟩ := hx.stands hstand
  have hrest : standing a s stand t = { t with state := mid, stack := c.follow :: t.stack } := by
    rw [standing, standIn]
    simp only [hstand]
    exact hsettled _ rfl
  have hloud' : (m.retarget c.follow).isSilent = false := by
    cases m <;> first | rfl | cases hloud
  have hsilent : mst.isSilent = false := by
    have hmem := ha.matchesRaw hmst (e := m) (by simp [hf]) hloud
    rw [State.isSilent, Bool.and_eq_false_iff, List.all_eq_false]
    exact .inr ⟨m, hmem, by simp [hloud]⟩
  -- the match is in no state in which a call is exchanged
  have hkept : b.states[mid]? = some mst := hx.kept hmst fun heq => by
    obtain rfl := Option.some.inj (hmst.symm.trans (heq ▸ hx.state))
    rw [hf, List.mem_singleton] at hcall
    rw [← hcall] at hloud
    cases hloud
  rw [hrest]
  refine ⟨rfl, ⟨ahead_of_match hnew rfl rfl hloud', ahead_of_match hkept hns hf hloud⟩, ⟨?_, ?_⟩,
    ⟨?_, ?_⟩, fun symbol => ?_⟩
  · rw [Tokenizer.waits_iff hnew]
    exact .inr ⟨rfl, by simp [State.isSilent, State.matching, hloud']⟩
  · rw [Tokenizer.waits_iff hkept]
    exact .inr ⟨hns, hsilent⟩
  · rw [Tokenizer.accepting_iff hnew]
    rintro ⟨-, hended⟩
    cases hended
  · rw [Tokenizer.accepting_iff hkept]
    rintro ⟨-, hended⟩
    rw [hns] at hended
    cases hended
  · rw [sends_of_match hnew rfl rfl, sends_of_match hkept hns hf, accepts_retarget]
    split
    · have hlt : m.target < a.states.size := by
        obtain heq | ⟨_, _, hst, -⟩ := hends
        · exact heq ▸ lt_size hz
        · exact lt_size hst
      rw [List.map_singleton, List.map_singleton, Edge.target_retarget,
        hx.standing_eq (t := { t with state := c.follow }) hfollow, hx.standing_eq
        (t := { t with state := m.target, stack := c.follow :: t.stack }) hlt, hx.settled_of_end
        hstand (t := { t with state := m.target, stack := c.follow :: t.stack }) hz hstop rfl hends]
    · rfl

/-- Before the exchange a search does what it does afterwards, as long as no call is too deep. -/
theorem reduces_left (ha : Tame a) :
    Reduces (machine a) (joint a b s stand) (Inside a) (fun t => ¬ Refused a t)
    (Through a s) (standing a s stand) (steps a s) where
  folds := {
    next := fun t ht u hu => ht.ahead ha.wired hu
    pass := fun t ht hthrough => by
      obtain ⟨u, hu⟩ := exists_ahead hthrough
      obtain ⟨hsettled, hsteps⟩ := settled_on hthrough hu
      have hlt := (ht.ahead ha.wired (hu ▸ List.mem_singleton.2 rfl)).state
      exact ⟨u, hu, by rw [hx.standing_eq hlt, hx.standing_eq ht.state, hsettled], by omega⟩
    quiet := fun t _ hthrough => not_waits_of_through hthrough
    mark := fun t _ => standing_keeps.2
    unmarked := fun t ht hnot => by rw [hx.standing_eq ht.state, settled_eq hnot]
    alternative := fun t => standing_keeps.1
    ahead := fun t ht hplain hnot => by
      rw [hx.standing_eq ht.state, settled_eq hnot]
      exact hx.map_ahead ha ht hplain
    waits := fun t ht hnot => by
      rw [hx.standing_eq ht.state, settled_eq hnot]
      exact hx.waits_iff ht.state
    accepts := fun t ht hnot => by
      rw [hx.standing_eq ht.state, settled_eq hnot]
      exact hx.accepting_iff ht.state
    once := fun t u ht hu hnot hnot' heq => by
      rw [hx.standing_eq ht.state, hx.standing_eq hu.state, settled_eq hnot, settled_eq hnot']
        at heq
      exact .inl heq }
  rooted mode t ht := inside_roots ha.wired ht
  roots mode := rfl
  sent t symbol ht u hu := ht.sends ha.wired hu
  sends t symbol ht hwaits := by
    have hnot : ¬ Through a s t := fun hthrough => (not_waits_of_through hthrough).1 hwaits
    rw [hx.standing_eq ht.state, settled_eq hnot]
    exact (congrArg _ (hx.sends_eq ht.state symbol)).symm

theorem reached_ahead (ha : Tame a) (h : Reached a stand t) (hu : u ∈ ahead b t) :
    Reached a stand u := by
  obtain hlt | ⟨c, hc⟩ := h.state
  · have hin : Inside a t := ⟨hlt, h.stack⟩
    by_cases hkept : t.state = s → st.isRuleStop = true
    · exact (hin.ahead ha.wired (hx.ahead_eq ha hin hkept ▸ hu)).reached
    · obtain ⟨ht, hns⟩ := Classical.not_imp.1 hkept
      have hst' : b.states[t.state]? = some { st with optimized := some es' } := ht ▸ hx.changed
      rw [Tokenizer.ahead_eq hst' (Bool.eq_false_of_not_eq_true hns)] at hu
      obtain ⟨e', he', halong⟩ := List.mem_filterMap.1 hu
      obtain ⟨e, he, hexchanged⟩ := exists_of_forall₂_right hx.edges he'
      cases hexchanged with
      | keep => exact (hin.along ((ha.wired.within hx.state).followed _ he) halong).reached
      | @splice _ hop mid hs hf =>
        have hlt := ((ha.wired.within hs.state).followed hop (by simp [hf])).1
        exact (hin.along (Edge.within_plain.2 hlt) halong).reached
      | @inline c fresh hstand =>
        obtain rfl := Option.some.inj halong
        exact ⟨.inr ⟨c, hstand⟩, h.stack⟩
  · rw [(hx.matchAlike ha hc).ahead.1] at hu
    cases hu

theorem reached_sends (ha : Tame a) (h : Reached a stand t) (hu : u ∈ sends b symbol t) :
    Reached a stand u := by
  obtain hlt | ⟨c, hc⟩ := h.state
  · have hin : Inside a t := ⟨hlt, h.stack⟩
    exact (hin.sends ha.wired (hx.sends_eq hlt symbol ▸ hu)).reached
  · obtain ⟨mid, mst, m, stop, z, r, -, -, -, -, -, -, -, hnew, -⟩ := hx.exists_match ha hc
    rw [sends_of_match hnew rfl rfl] at hu
    split at hu
    · obtain rfl := List.mem_singleton.1 hu
      rw [Edge.target_retarget]
      exact ⟨.inl (hx.stands hc).2.follow, h.stack⟩
    · cases hu

/-- After the exchange a search does what it does, by the threads that its threads go on to. -/
theorem reduces_right (ha : Tame a) :
    Reduces (machine b) (joint a b s stand) (Reached a stand) (fun _ => True)
    (Through a s) (standing a s stand) (steps a s) where
  folds := {
    next := fun t ht u hu => hx.reached_ahead ha ht hu
    pass := fun t ht hthrough => by
      have hin : Inside a t := ⟨lt_of_through hthrough, ht.stack⟩
      obtain ⟨u, hu, hpass⟩ := (hx.reduces_left ha).folds.pass t hin hthrough
      exact ⟨u, (hx.ahead_of_through ha hin hthrough).trans hu, hpass⟩
    quiet := fun t _ hthrough => by
      have hlt := lt_of_through hthrough
      rw [show (machine b).waits t = Waits b t from rfl,
        show (machine b).accepts t = Accepting b t from rfl,
        hx.waits_iff hlt, hx.accepting_iff hlt]
      exact not_waits_of_through hthrough
    mark := fun t _ => standing_keeps.2
    unmarked := fun t ht hnot => by
      obtain hlt | ⟨c, hc⟩ := ht.state
      · rw [hx.standing_eq hlt, settled_eq hnot]
      · exact (hx.matchAlike ha hc).mark
    alternative := fun t => standing_keeps.1
    ahead := fun t ht _ hnot => by
      obtain hlt | ⟨c, hc⟩ := ht.state
      · rw [hx.standing_eq hlt, settled_eq hnot]
        rfl
      · obtain ⟨h1, h2⟩ := (hx.matchAlike ha hc).ahead
        exact (congrArg _ h2).trans (congrArg _ h1).symm
    waits := fun t ht hnot => by
      obtain hlt | ⟨c, hc⟩ := ht.state
      · rw [hx.standing_eq hlt, settled_eq hnot]
        rfl
      · exact iff_of_true (hx.matchAlike ha hc).waits.2 (hx.matchAlike ha hc).waits.1
    accepts := fun t ht hnot => by
      obtain hlt | ⟨c, hc⟩ := ht.state
      · rw [hx.standing_eq hlt, settled_eq hnot]
        rfl
      · exact iff_of_false (hx.matchAlike ha hc).accepts.2 (hx.matchAlike ha hc).accepts.1
    once := fun t u ht hu hnot hnot' heq => by
      obtain hlt | ⟨c, hc⟩ := ht.state
      · obtain hlt' | ⟨c, hc⟩ := hu.state
        · rw [hx.standing_eq hlt, hx.standing_eq hlt', settled_eq hnot, settled_eq hnot'] at heq
          exact .inl heq
        · rw [hx.standing_eq hlt, settled_eq hnot] at heq
          have hmatch := hx.matchAlike ha hc
          exact .inr ⟨heq ▸ hmatch.ahead.2, heq ▸ hmatch.accepts.2⟩
      · exact .inr ⟨(hx.matchAlike ha hc).ahead.1, (hx.matchAlike ha hc).accepts.1⟩ }
  rooted mode t ht := by
    have ht : t ∈ roots b mode := ht
    rw [hx.roots_eq mode ha.wired] at ht
    exact (inside_roots ha.wired ht).reached
  roots mode := congrArg _ (hx.roots_eq mode ha.wired).symm
  sent t symbol ht u hu := hx.reached_sends ha ht hu
  sends t symbol ht hwaits := by
    obtain hlt | ⟨c, hc⟩ := ht.state
    · have hnot : ¬ Through a s t :=
        fun hthrough => (not_waits_of_through hthrough).1 ((hx.waits_iff hlt).1 hwaits)
      rw [hx.standing_eq hlt, settled_eq hnot]
      rfl
    · exact (hx.matchAlike ha hc).sends symbol

theorem refused_before (hlt : t.state < a.states.size) (h : Refused b t) : Refused a t := by
  obtain ⟨hcalls, st', c, hst', hns, hcall⟩ := h
  refine ⟨hcalls, ?_⟩
  by_cases heq : t.state = s
  · obtain rfl := Option.some.inj (hst'.symm.trans (heq ▸ hx.changed))
    obtain ⟨e, he, hexchanged⟩ := exists_of_forall₂_right hx.edges hcall
    cases hexchanged with
    | keep => exact ⟨st, c, heq ▸ hx.state, hns, he⟩
  · have hst := Array.getElem?_eq_getElem hlt
    obtain rfl := Option.some.inj (hst'.symm.trans (hx.kept hst heq))
    exact ⟨_, c, hst, hns, hcall⟩

/-- A lexer cuts texts in the same way before and after the exchange, as long as no call is too
deep. -/
theorem agree (ha : Tame a) :
    Agree a b (joint a b s stand) (Inside a) (Reached a stand) (Through a s)
    (standing a s stand) (steps a s) where
  left := hx.reduces_left ha
  right := hx.reduces_right ha
  leftEnds t ht haccepts := by
    rw [hx.standing_eq ht.state,
      settled_eq fun hthrough => (not_waits_of_through hthrough).2 haccepts]
  rightEnds t ht haccepts := by
    obtain hlt | ⟨c, hc⟩ := ht.state
    · rw [hx.standing_eq hlt, settled_eq fun hthrough =>
        (not_waits_of_through hthrough).2 ((hx.accepting_iff hlt).1 haccepts)]
    · exact absurd haccepts (hx.matchAlike ha hc).accepts.1
  owner t ht := (hx.ownerOf_eq (Array.getElem?_eq_getElem ht.state)).symm
  refused t ht hrefused := by
    obtain hlt | ⟨c, hc⟩ := ht.state
    · have hrefused := hx.refused_before hlt hrefused
      have hnot := not_through_of_refused (s := s) hrefused
      refine ⟨hnot, fun u hu hnot' heq => ?_⟩
      rw [hx.standing_eq hlt, hx.standing_eq hu.state, settled_eq hnot, settled_eq hnot'] at heq
      exact heq ▸ hrefused
    · obtain ⟨mid, mst, m, stop, z, r, -, -, -, hloud, -, -, -, hnew, -⟩ := hx.exists_match ha hc
      obtain ⟨-, st', c', hst', -, hcall⟩ := hrefused
      obtain rfl := Option.some.inj (hst'.symm.trans hnew)
      have heq : m.retarget c.follow = .call c' := (List.mem_singleton.1 hcall).symm
      cases m <;> cases hloud <;> cases heq
  tables := hx.tables

end Exchange

end GrammarWalk.Tokenizer
