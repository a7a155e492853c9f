import GrammarWalk.Proofs.Network.Passing
import GrammarWalk.Proofs.Network.Run

/-! One rewrite of the optimized edge lists: the followed list of one state is replaced, edge by
edge or by a merge of its branches, and new states with a single match are appended. Everything else
about a network stays. -/

namespace GrammarWalk

/-- A state that an optimization adds: it has one edge and follows it. -/
def State.matching (number : Nat) (rule : Option Nat) (e : Edge) : State :=
  { number, rule, kind := .basic, edges := [e], optimized := some [e] }

theorem Edge.Within.onward_lt {n : Nat} {e : Edge} (h : e.Within n) : e.onward < n := by
  cases hc : e.call? with
  | none => exact Edge.onward_of_call?_eq_none hc ▸ h.1
  | some c =>
    obtain rfl := Edge.call?_eq_some.1 hc
    exact h.2 c rfl

namespace Network

/-- A search that has come to a rule stop goes on without input. -/
def StopsSilent (net : Network) : Prop :=
  ∀ {s : Nat} {st : State}, net.states[s]? = some st → st.isRuleStop = true →
    ∀ e ∈ st.followed, e.isSilent = true

/-- The rule that a state belongs to. -/
def ownerOf (net : Network) (s : Nat) : Option Nat := net.states[s]?.bind (·.rule)

/-- Edge `e` of state `s` leads to the state `m`, whose edges can stand for it: it only passes on,
and not back to itself. -/
structure Splices (net : Network) (s : Nat) (e : Edge) (m : State) : Prop where
  plain : e.isPlain = true
  other : e.target ≠ s
  state : net.states[e.target]? = some m
  basic : m.kind = .basic
  silent : m.isSilent = true
  hops : ∀ h ∈ m.followed, h.isPlain = true
  clear : ¬ Relation.TransGen net.PassHop e.target e.target

/-- The call `c` is inlined: the new state `fresh` has the match `m`. -/
structure Inlines (free : Call → Edge → Prop) (net net' : Network) (c : Call) (fresh : Nat)
    (m : Edge) : Prop where
  free : free c m
  labelled : m.isLabelled = true
  beyond : net.states.size ≤ fresh
  state : net'.states[fresh]? = some (.matching fresh (net.ownerOf c.follow) (m.retarget c.follow))

/--
What becomes of the edges of state `s` one by one, with the numbers of calls inlined and of edges
spliced. A call is inlined as a match only if the two are in `free`.
-/
inductive Replaced (free : Call → Edge → Prop) (net net' : Network) (s : Nat) :
    Nat → Nat → List Edge → List Edge → Prop
  | nil : Replaced free net net' s 0 0 [] []
  | keep {i j : Nat} {e : Edge} {es es' : List Edge} : Replaced free net net' s i j es es' →
      Replaced free net net' s i j (e :: es) (e :: es')
  | splice {i j : Nat} {e : Edge} {m : State} {es es' : List Edge} : net.Splices s e m →
      Replaced free net net' s i j es es' →
      Replaced free net net' s i (j + 1) (e :: es)
      ((m.followed.map fun h => .plain h.target) ++ es')
  | inline {i j : Nat} {c : Call} {fresh : Nat} {m : Edge} {es es' : List Edge} :
      Inlines free net net' c fresh m → Replaced free net net' s i j es es' →
      Replaced free net net' s (i + 1) j (.call c :: es) (.plain fresh :: es')

/-- Edge `e` leads to a state whose one edge is the match `m`. -/
structure Branch (net : Network) (e m : Edge) : Prop where
  epsilon : e.isEpsilon = true
  labelled : m.isLabelled = true
  state : ∃ b : State, net.states[e.target]? = some b ∧ b.followed = [m]

/-- Two or more branches of state `s`, the `members` of its list, are merged into the match `m` of
`fresh`, which accepts what they accept and leads where they lead. -/
structure Merged (net net' : Network) (s : Nat) (es es' : List Edge) (fresh : Nat) (m : Edge) :
    Prop where
  labelled : m.isLabelled = true
  beyond : net.states.size ≤ fresh
  state : net'.states[fresh]? = some (.matching fresh (net.ownerOf s) m)
  parts : ∃ members rest : List Edge, es.Perm (members ++ rest) ∧ es' = rest ++ [.plain fresh] ∧
    1 < members.length ∧ ∀ e ∈ members, ∃ b, net.Branch e b ∧ b.target = m.target ∧
      ∀ {v lo hi : Int}, b.accepts v lo hi = true → m.accepts v lo hi = true
  back : ∀ {v lo hi : Int}, m.accepts v lo hi = true →
    ∃ e ∈ es, ∃ b, net.Branch e b ∧ b.target = m.target ∧ b.accepts v lo hi = true

/-- Some edge that matches or calls leads onward to `t`. -/
def Follows (net : Network) (t : Nat) : Prop :=
  ∃ (s : Nat) (st : State), net.states[s]? = some st ∧
    ∃ e ∈ st.followed, e.matchesOrCalls = true ∧ e.onward = t

/-- `net'` is `net` with another followed list in state `s`, and new states with one match each. -/
structure Grows (net net' : Network) (s : Nat) (st : State) (es' : List Edge) : Prop where
  state : net.states[s]? = some st
  changed : net'.states[s]? = some { st with optimized := some es' }
  kept : ∀ {t : Nat} {old : State}, net.states[t]? = some old → t ≠ s → net'.states[t]? = some old
  size : net.states.size ≤ net'.states.size
  new : ∀ {t : Nat} {fresh : State}, net'.states[t]? = some fresh → net.states.size ≤ t →
    ∃ (m : Edge) (r : Option Nat), fresh = .matching t r m ∧ m.isLabelled = true ∧
      net.Follows m.target ∧ (r = net.ownerOf m.target ∨ (net.kind = .parser ∧ r = st.rule))
  tables : net' = { net with states := net'.states }

/-- One rewrite; only calls in `free` are inlined. -/
inductive Rewrite (free : Call → Edge → Prop) (net net' : Network) : Prop
  | replace {s i j : Nat} {st : State} {es' : List Edge} : Grows net net' s st es' →
      Replaced free net net' s i j st.followed es' → 0 < i + j → Rewrite free net net'
  | merge {s fresh : Nat} {st : State} {es' : List Edge} {m : Edge} : Grows net net' s st es' →
      Merged net net' s st.followed es' fresh m → Rewrite free net net'

variable {free : Call → Edge → Prop} {net net' : Network} {s t i j : Nat} {st : State}
  {es es' : List Edge}

theorem Branch.not_stop {e m : Edge} (h : net.Branch e m) (hs : net.StopsSilent) :
    ∃ b : State, net.states[e.target]? = some b ∧ b.isRuleStop = false ∧ b.followed = [m] := by
  obtain ⟨b, hb, hf⟩ := h.state
  refine ⟨b, hb, ?_, hf⟩
  cases hstop : b.isRuleStop with
  | false => rfl
  | true =>
    have := hs hb hstop m (by simp [hf])
    rw [(Edge.of_isLabelled h.labelled).1] at this
    exact nomatch this

theorem Splices.not_stop {e : Edge} {m : State} (h : net.Splices s e m) : m.isRuleStop = false := by
  rw [State.isRuleStop, h.basic]
  rfl

theorem isLabelled_retarget (e : Edge) (t : Nat) : (e.retarget t).isLabelled = e.isLabelled := by
  cases e <;> rfl

theorem ownerOf_eq (h : net.states[s]? = some st) : net.ownerOf s = st.rule := by
  rw [ownerOf, h, Option.bind_some]

theorem Replaced.of_mem (h : Replaced free net net' s i j es es') {e : Edge} (he : e ∈ es) :
    e ∈ es' ∨ (∃ m, net.Splices s e m ∧ ∀ hop ∈ m.followed, .plain hop.target ∈ es') ∨
    ∃ c fresh m, e = .call c ∧ Inlines free net net' c fresh m ∧ .plain fresh ∈ es' := by
  induction h with
  | nil => exact nomatch he
  | keep _ ih =>
    rcases List.mem_cons.1 he with rfl | he
    · exact .inl (by simp)
    · rcases ih he with h | ⟨m, hm, h⟩ | ⟨c, fresh, m, rfl, hm, h⟩
      · exact .inl (List.mem_cons_of_mem _ h)
      · exact .inr (.inl ⟨m, hm, fun hop hh => List.mem_cons_of_mem _ (h hop hh)⟩)
      · exact .inr (.inr ⟨c, fresh, m, rfl, hm, List.mem_cons_of_mem _ h⟩)
  | splice hs _ ih =>
    rcases List.mem_cons.1 he with rfl | he
    · exact .inr (.inl ⟨_, hs, fun hop hh => List.mem_append_left _ (List.mem_map_of_mem hh)⟩)
    · rcases ih he with h | ⟨m, hm, h⟩ | ⟨c, fresh, m, rfl, hm, h⟩
      · exact .inl (List.mem_append_right _ h)
      · exact .inr (.inl ⟨m, hm, fun hop hh => List.mem_append_right _ (h hop hh)⟩)
      · exact .inr (.inr ⟨c, fresh, m, rfl, hm, List.mem_append_right _ h⟩)
  | inline hi _ ih =>
    rcases List.mem_cons.1 he with rfl | he
    · exact .inr (.inr ⟨_, _, _, rfl, hi, by simp⟩)
    · rcases ih he with h | ⟨m, hm, h⟩ | ⟨c, fresh, m, rfl, hm, h⟩
      · exact .inl (List.mem_cons_of_mem _ h)
      · exact .inr (.inl ⟨m, hm, fun hop hh => List.mem_cons_of_mem _ (h hop hh)⟩)
      · exact .inr (.inr ⟨c, fresh, m, rfl, hm, List.mem_cons_of_mem _ h⟩)

/-- An edge of the new list was there, comes from a state spliced away or enters a new state. -/
theorem Replaced.mem_of (h : Replaced free net net' s i j es es') {e : Edge} (he : e ∈ es') :
    e ∈ es ∨ (∃ f ∈ es, ∃ m, net.Splices s f m ∧ ∃ hop ∈ m.followed, e = .plain hop.target) ∨
    ∃ c fresh m, .call c ∈ es ∧ Inlines free net net' c fresh m ∧ e = .plain fresh := by
  induction h with
  | nil => exact nomatch he
  | keep _ ih =>
    rcases List.mem_cons.1 he with rfl | he
    · exact .inl (by simp)
    · rcases ih he with h | ⟨f, hf, h⟩ | ⟨c, fresh, m, hc, h⟩
      · exact .inl (List.mem_cons_of_mem _ h)
      · exact .inr (.inl ⟨f, List.mem_cons_of_mem _ hf, h⟩)
      · exact .inr (.inr ⟨c, fresh, m, List.mem_cons_of_mem _ hc, h⟩)
  | splice hs _ ih =>
    rcases List.mem_append.1 he with he | he
    · obtain ⟨hop, hh, rfl⟩ := List.mem_map.1 he
      exact .inr (.inl ⟨_, by simp, _, hs, hop, hh, rfl⟩)
    · rcases ih he with h | ⟨f, hf, h⟩ | ⟨c, fresh, m, hc, h⟩
      · exact .inl (List.mem_cons_of_mem _ h)
      · exact .inr (.inl ⟨f, List.mem_cons_of_mem _ hf, h⟩)
      · exact .inr (.inr ⟨c, fresh, m, List.mem_cons_of_mem _ hc, h⟩)
  | inline hi _ ih =>
    rcases List.mem_cons.1 he with rfl | he
    · exact .inr (.inr ⟨_, _, _, by simp, hi, rfl⟩)
    · rcases ih he with h | ⟨f, hf, h⟩ | ⟨c, fresh, m, hc, h⟩
      · exact .inl (List.mem_cons_of_mem _ h)
      · exact .inr (.inl ⟨f, List.mem_cons_of_mem _ hf, h⟩)
      · exact .inr (.inr ⟨c, fresh, m, List.mem_cons_of_mem _ hc, h⟩)

namespace Grows

variable (g : Grows net net' s st es')
include g

theorem ruleStops_eq : net'.ruleStops = net.ruleStops := by rw [g.tables]

theorem ruleStarts_eq : net'.ruleStarts = net.ruleStarts := by rw [g.tables]

theorem old {old : State} (h : net.states[t]? = some old) :
    ∃ l, net'.states[t]? = some { old with optimized := l } := by
  by_cases hts : t = s
  · subst hts
    obtain rfl := Option.some.inj (h.symm.trans g.state)
    exact ⟨some es', g.changed⟩
  · exact ⟨old.optimized, g.kept h hts⟩

theorem ownerOf_eq {old : State} (h : net.states[t]? = some old) :
    net'.ownerOf t = net.ownerOf t := by
  obtain ⟨l, h'⟩ := g.old h
  rw [Network.ownerOf_eq h, Network.ownerOf_eq h']

theorem cases {st' : State} (h : net'.states[t]? = some st') (ht : t < net.states.size) :
    (t = s ∧ st' = { st with optimized := some es' }) ∨ (t ≠ s ∧ net.states[t]? = some st') := by
  by_cases hts : t = s
  · subst hts
    exact .inl ⟨rfl, Option.some.inj (h.symm.trans g.changed)⟩
  · refine .inr ⟨hts, ?_⟩
    have hold := Array.getElem?_eq_getElem ht
    rw [hold, ← g.kept hold hts, h]

theorem branch_ne {e b : Edge} (hb : net.Branch e b) (he : e ∈ st.followed) : e.target ≠ s := by
  intro heq
  obtain ⟨bst, hbst, hbf⟩ := hb.state
  rw [heq, g.state] at hbst
  obtain rfl := Option.some.inj hbst
  rw [hbf, List.mem_singleton] at he
  have := hb.epsilon
  have := hb.labelled
  cases b <;> simp_all [Edge.isEpsilon, Edge.isLabelled]

end Grows

namespace Merged

variable {fresh : Nat} {m : Edge} (h : Merged net net' s es es' fresh m)
include h

theorem joined : .plain fresh ∈ es' := by
  obtain ⟨members, rest, -, rfl, -⟩ := h.parts
  simp

theorem mem_of {e : Edge} (he : e ∈ es') : e = .plain fresh ∨ e ∈ es := by
  obtain ⟨members, rest, hperm, rfl, -⟩ := h.parts
  rcases List.mem_append.1 he with he | he
  · exact .inr (hperm.mem_iff.2 (List.mem_append_right _ he))
  · exact .inl (List.mem_singleton.1 he)

theorem one_lt_length : 1 < es.length := by
  obtain ⟨members, rest, hperm, -, htwo, -⟩ := h.parts
  rw [hperm.length_eq, List.length_append]
  omega

theorem of_mem {e : Edge} (he : e ∈ es) : e ∈ es' ∨ ∃ b, net.Branch e b ∧ b.target = m.target ∧
    ∀ {v lo hi : Int}, b.accepts v lo hi = true → m.accepts v lo hi = true := by
  obtain ⟨members, rest, hperm, rfl, -, hmembers⟩ := h.parts
  rcases List.mem_append.1 (hperm.mem_iff.1 he) with he | he
  · exact .inr (hmembers e he)
  · exact .inl (List.mem_append_left _ he)

end Merged

theorem Wired.onward_lt (hw : net.Wired) (hs : net.states[s]? = some st) {e : Edge}
    (he : e ∈ st.followed) : e.onward < net.states.size := ((hw.within hs).followed e he).onward_lt

theorem Wired.call_lt (hw : net.Wired) (hs : net.states[s]? = some st) {c : Call}
    (hc : .call c ∈ st.followed) : c.start < net.states.size ∧ c.follow < net.states.size :=
  ⟨((hw.within hs).followed _ hc).1, ((hw.within hs).followed _ hc).2 c rfl⟩

theorem Wired.lt_of_follows (hw : net.Wired) (h : net.Follows t) : t < net.states.size := by
  obtain ⟨s, st, hs, e, he, -, rfl⟩ := h
  exact hw.onward_lt hs he

theorem Rewrite.grows (h : Rewrite free net net') : ∃ (s : Nat) (st : State) (es' : List Edge),
    Grows net net' s st es' ∧ ((∃ i j, Replaced free net net' s i j st.followed es') ∨
      ∃ fresh m, Merged net net' s st.followed es' fresh m) := by
  cases h with
  | replace g hr => exact ⟨_, _, _, g, .inl ⟨_, _, hr⟩⟩
  | merge g hm => exact ⟨_, _, _, g, .inr ⟨_, _, hm⟩⟩

/-- The new edges of a rewritten list: old ones, or epsilon edges to a spliced edge's target or to a
new state of the rule of what it stands for. -/
theorem mem_rewritten (h : (∃ i j, Replaced free net net' s i j st.followed es') ∨
    ∃ fresh m, Merged net net' s st.followed es' fresh m) {e : Edge} (he : e ∈ es') :
    e ∈ st.followed ∨
    (∃ f ∈ st.followed, ∃ mid, net.Splices s f mid ∧ ∃ hop ∈ mid.followed, e = .plain hop.target) ∨
    ∃ fresh, e = .plain fresh ∧ net.states.size ≤ fresh ∧ fresh < net'.states.size := by
  rcases h with ⟨i, j, hr⟩ | ⟨fresh, m, hm⟩
  · rcases hr.mem_of he with he | hs | ⟨c, fresh, m, -, hi, rfl⟩
    · exact .inl he
    · exact .inr (.inl hs)
    · exact .inr (.inr ⟨fresh, rfl, hi.beyond, lt_size hi.state⟩)
  · rcases hm.mem_of he with rfl | he
    · exact .inr (.inr ⟨fresh, rfl, hm.beyond, lt_size hm.state⟩)
    · exact .inl he

theorem mem_rewritten_of_mem
    (h : (∃ i j, Replaced free net net' s i j st.followed es') ∨
      ∃ fresh m, Merged net net' s st.followed es' fresh m) {e : Edge} (he : e ∈ st.followed)
    (hs : e.isSilent = false) : e ∈ es' := by
  rcases h with ⟨_, _, hr⟩ | ⟨fresh, m, hm⟩
  · rcases hr.of_mem he with he' | ⟨mid, hmid, -⟩ | ⟨_, _, _, rfl, -⟩
    · exact he'
    · rw [(Edge.isSilent_of_isPlain hmid.plain).1] at hs
      cases hs
    · cases hs
  · rcases hm.of_mem he with he' | ⟨b, hb, -⟩
    · exact he'
    · have := hb.epsilon
      cases e <;> simp_all [Edge.isEpsilon, Edge.isSilent]

theorem mem_of_mem_rewritten
    (h : (∃ i j, Replaced free net net' s i j st.followed es') ∨
      ∃ fresh m, Merged net net' s st.followed es' fresh m) {e : Edge} (he : e ∈ es')
    (hp : e.isPlain = false) : e ∈ st.followed := by
  rcases mem_rewritten h he with he | ⟨_, -, _, -, _, -, rfl⟩ | ⟨_, rfl, -⟩
  · exact he
  · cases hp
  · cases hp

theorem Rewrite.within (h : Rewrite free net net')
    (hw : ∀ {s : Nat} {st : State}, net.states[s]? = some st →
      st.number = s ∧ st.Within net.states.size) (hs : net'.states[s]? = some st) :
    st.number = s ∧ st.Within net'.states.size := by
  obtain ⟨x, xst, es', g, hnew⟩ := h.grows
  by_cases hlt : s < net.states.size
  · rcases g.cases hs hlt with ⟨rfl, rfl⟩ | ⟨-, hs⟩
    · obtain ⟨hnum, hraw, hfollowed⟩ := hw g.state
      refine ⟨hnum, fun e he => (hraw e he).mono g.size, fun e he => ?_⟩
      rcases mem_rewritten hnew he with he | ⟨f, -, mid, hmid, hop, hhop,
        rfl⟩ | ⟨fresh, rfl, -, hlt⟩
      · exact (hfollowed e he).mono g.size
      · have := ((hw hmid.state).2.followed hop hhop).1
        exact Edge.within_plain.2 (Nat.lt_of_lt_of_le this g.size)
      · exact Edge.within_plain.2 hlt
    · exact ⟨(hw hs).1, (hw hs).2.mono g.size⟩
  · obtain ⟨m, r, rfl, hm, ⟨y, yst, hy, e, he, -, htarget⟩, -⟩ := g.new hs (Nat.not_lt.1 hlt)
    have hlead : m.target < net.states.size := htarget ▸ ((hw hy).2.followed e he).onward_lt
    have hw' : m.Within net'.states.size := by
      refine ⟨Nat.lt_of_lt_of_le hlead g.size, fun c hc => ?_⟩
      rw [(Edge.of_isLabelled hm).2.1] at hc
      exact nomatch hc
    exact ⟨rfl, fun e he => List.mem_singleton.1 he ▸ hw',
      fun e he => List.mem_singleton.1 he ▸ hw'⟩

theorem Rewrite.wired (h : Rewrite free net net') (hw : net.Wired) : net'.Wired := by
  obtain ⟨s, st, es', g, -⟩ := h.grows
  refine hw.of_keeps ⟨fun {t old} ht => ?_⟩ (h.within fun hs => ⟨hw.number hs, hw.within hs⟩)
    g.ruleStarts_eq g.ruleStops_eq (by rw [g.tables]) (by rw [g.tables])
  obtain ⟨l, h'⟩ := g.old ht
  exact ⟨_, h', rfl, rfl⟩

theorem Rewrite.inRange (h : Rewrite free net net') (hr : net.InRange) : net'.InRange := by
  obtain ⟨s, st, es', g, -⟩ := h.grows
  rw [g.tables]
  exact hr.of_states g.size (h.within fun hs => ⟨hr.number hs, hr.within hs⟩)

/-- `net'` has the states of `net`, but for their optimized lists, perhaps more states, and the same
tables. -/
structure SameRaw (net net' : Network) : Prop where
  old : ∀ {s : Nat} {st : State}, net.states[s]? = some st →
    ∃ l, net'.states[s]? = some { st with optimized := l }
  tables : net' = { net with states := net'.states }

theorem SameRaw.rewrite {a b : Network} (h : SameRaw net a) (hr : Rewrite free a b) :
    SameRaw net b := by
  obtain ⟨s, st, es', g, -⟩ := hr.grows
  refine ⟨fun hs => ?_, ?_⟩
  · obtain ⟨l, hl⟩ := h.old hs
    obtain ⟨l', hl'⟩ := g.old hl
    exact ⟨l', hl'⟩
  · rw [g.tables, h.tables]

end Network

end GrammarWalk
