import GrammarWalk.Network.Basic
import Mathlib.Data.List.Basic

/-! A wired network: every edge leads to a state of the network, and every entry of a table names a
state of the kind the table is for. A step that changes states one by one, each without changing its
number, rule and type, keeps a network wired. -/

namespace GrammarWalk

/-- The edge leads to states below `n`. -/
def Edge.Within (n : Nat) (e : Edge) : Prop := e.target < n ∧ ∀ c, e.call? = some c → c.follow < n

theorem Edge.Within.mono {m n : Nat} {e : Edge} (h : e.Within m) (hmn : m ≤ n) : e.Within n :=
  ⟨Nat.lt_of_lt_of_le h.1 hmn, fun c hc => Nat.lt_of_lt_of_le (h.2 c hc) hmn⟩

@[simp] theorem Edge.target_plain (t : Nat) : (Edge.plain t).target = t := rfl

theorem Edge.within_plain {n t : Nat} : (Edge.plain t).Within n ↔ t < n :=
  ⟨fun h => h.1, fun h => ⟨h, nofun⟩⟩

theorem Edge.Within.retarget {n t : Nat} {e : Edge} (h : e.Within n) (ht : t < n) :
    (e.retarget t).Within n := by
  refine ⟨by simpa using ht, fun c hc => ?_⟩
  cases e <;> simp_all [Edge.retarget, Edge.call?, Edge.Within]
  subst hc
  exact h.2

instance (n : Nat) (e : Edge) : Decidable (e.Within n) :=
  inferInstanceAs (Decidable (e.target < n ∧ ∀ c ∈ e.call?, c.follow < n))

/-- All edges of the state, raw and followed, lead to states below `n`. -/
structure State.Within (n : Nat) (st : State) : Prop where
  edges : ∀ e ∈ st.edges, e.Within n
  followed : ∀ e ∈ st.followed, e.Within n

instance (n : Nat) (st : State) : Decidable (st.Within n) :=
  decidable_of_iff ((∀ e ∈ st.edges, e.Within n) ∧ ∀ e ∈ st.followed, e.Within n)
    ⟨fun h => ⟨h.1, h.2⟩, fun h => ⟨h.edges, h.followed⟩⟩

theorem State.Within.mono {m n : Nat} {st : State} (h : st.Within m) (hmn : m ≤ n) : st.Within n :=
  ⟨fun e he => (h.edges e he).mono hmn, fun e he => (h.followed e he).mono hmn⟩

theorem StateKind.isRuleStop_type {k : StateKind} : (k == .ruleStop) = (k.type == .ruleStop) := by
  rcases k with _ | _ | _ | _ | ⟨_ | _ | _⟩ | _ | _ | _ | _ | _ | _ <;> rfl

theorem StateKind.isRuleStart_type {k : StateKind} : k.isRuleStart = (k.type == .ruleStart) := by
  rcases k with _ | _ | _ | _ | ⟨_ | _ | _⟩ | _ | _ | _ | _ | _ | _ <;> rfl

theorem StateKind.isTokensStart_type {k : StateKind} :
    k.isTokensStart = (k.type == .tokensStart) := by
  rcases k with _ | _ | _ | _ | ⟨_ | _ | _⟩ | _ | _ | _ | _ | _ | _ <;> rfl

/-- The types that make a choice. -/
def StateType.decides : StateType → Bool
  | blockStart | plusBlockStart | starBlockStart | plusLoopBack | starLoopEntry | tokensStart =>
    true
  | _ => false

theorem StateKind.isSome_decision?_type {k : StateKind} : k.decision?.isSome = k.type.decides := by
  rcases k with _ | _ | _ | _ | ⟨_ | _ | _⟩ | _ | _ | _ | _ | _ | _ <;> rfl

theorem StateKind.type_mapDecision {k : StateKind} {f : Decision → Decision} :
    (k.mapDecision f).type = k.type := by
  rcases k with _ | _ | _ | _ | ⟨_ | _ | _⟩ | _ | _ | _ | _ | _ | _ <;> rfl

namespace Network

variable {net net' : Network}

theorem state_eq_ok {s : Nat} {st : State} : net.state s = .ok st ↔ net.states[s]? = some st :=
  Fault.ofLookup_eq_ok

/-- The states of `net` are still there, each with its rule and type. -/
structure Keeps (net net' : Network) : Prop where
  state : ∀ {s : Nat} {st : State}, net.states[s]? = some st →
    ∃ st' : State, net'.states[s]? = some st' ∧ st'.rule = st.rule ∧ st'.kind.type = st.kind.type

theorem Keeps.trans {a b c : Network} (h : Keeps a b) (h' : Keeps b c) : Keeps a c where
  state hs := by
    obtain ⟨st, h1, hr, ht⟩ := h.state hs
    obtain ⟨st', h2, hr', ht'⟩ := h'.state h1
    exact ⟨st', h2, hr'.trans hr, ht'.trans ht⟩

structure Wired (net : Network) : Prop where
  number : ∀ {s : Nat} {st : State}, net.states[s]? = some st → st.number = s
  within : ∀ {s : Nat} {st : State}, net.states[s]? = some st → st.Within net.states.size
  start : ∀ {r s : Nat}, net.ruleStarts[r]? = some s →
    ∃ st : State, net.states[s]? = some st ∧ st.isRuleStart = true
  stop : ∀ {r s : Nat}, net.ruleStops[r]? = some s →
    ∃ st : State, net.states[s]? = some st ∧ st.isRuleStop = true ∧ st.rule = some r
  mode : ∀ {m s : Nat}, net.modes[m]? = some s →
    ∃ st : State, net.states[s]? = some st ∧ st.kind.isTokensStart = true
  decision : ∀ {d s : Nat}, net.decisions[d]? = some s →
    ∃ st : State, net.states[s]? = some st ∧ st.kind.decision?.isSome = true

theorem lt_size {s : Nat} {st : State} (h : net.states[s]? = some st) : s < net.states.size :=
  (Array.getElem?_eq_some_iff.1 h).1

/-- A wired network stays wired when its states keep their types and lead to states that exist. -/
theorem Wired.of_keeps (h : net.Wired) (hk : Keeps net net')
    (hs : ∀ {s : Nat} {st : State}, net'.states[s]? = some st →
      st.number = s ∧ st.Within net'.states.size) (hstart : net'.ruleStarts = net.ruleStarts)
    (hstop : net'.ruleStops = net.ruleStops) (hmode : net'.modes = net.modes)
    (hdecision : net'.decisions = net.decisions) : net'.Wired where
  number hst := (hs hst).1
  within hst := (hs hst).2
  start hr := by
    obtain ⟨st, hst, ht⟩ := h.start (hstart ▸ hr)
    obtain ⟨st', hst', -, ht'⟩ := hk.state hst
    exact ⟨st',
      hst', by rw [State.isRuleStart, StateKind.isRuleStart_type] at ht ⊢; rw [ht']; exact ht⟩
  stop hr := by
    obtain ⟨st, hst, ht, hrule⟩ := h.stop (hstop ▸ hr)
    obtain ⟨st', hst', hrule', ht'⟩ := hk.state hst
    refine ⟨st', hst', ?_, hrule'.trans hrule⟩
    rw [State.isRuleStop, StateKind.isRuleStop_type] at ht ⊢
    rw [ht']
    exact ht
  mode hm := by
    obtain ⟨st, hst, ht⟩ := h.mode (hmode ▸ hm)
    obtain ⟨st', hst', -, ht'⟩ := hk.state hst
    exact ⟨st', hst', by rw [StateKind.isTokensStart_type] at ht ⊢; rw [ht']; exact ht⟩
  decision hd := by
    obtain ⟨st, hst, ht⟩ := h.decision (hdecision ▸ hd)
    obtain ⟨st', hst', -, ht'⟩ := hk.state hst
    exact ⟨st', hst', by rw [StateKind.isSome_decision?_type] at ht ⊢; rw [ht']; exact ht⟩

section modify

variable {s t : Nat} {f : State → State} {st : State}

theorem getElem?_modify :
    (net.modify s f).states[t]? = if s = t then net.states[t]?.map f else net.states[t]? := by
  unfold modify
  rw [Array.getElem?_modify]

theorem getElem?_modify_of_ne (h : s ≠ t) : (net.modify s f).states[t]? = net.states[t]? := by
  rw [getElem?_modify, if_neg h]

theorem getElem?_modify_self (h : net.states[s]? = some st) :
    (net.modify s f).states[s]? = some (f st) := by
  rw [getElem?_modify, if_pos rfl, h, Option.map_some]

@[simp] theorem size_modify : (net.modify s f).states.size = net.states.size := by
  unfold modify
  rw [Array.size_modify]

theorem keeps_modify (hf : ∀ st, net.states[s]? = some st →
    (f st).rule = st.rule ∧ (f st).kind.type = st.kind.type) : Keeps net (net.modify s f) where
  state {t st} ht := by
    by_cases h : s = t
    · subst h
      exact ⟨f st, getElem?_modify_self ht, hf st ht⟩
    · exact ⟨st, by rw [getElem?_modify_of_ne h, ht], rfl, rfl⟩

/-- What a change of one state has to respect. -/
structure Respects (net : Network) (s : Nat) (f : State → State) : Prop where
  number : ∀ st, net.states[s]? = some st → (f st).number = st.number
  rule : ∀ st, net.states[s]? = some st → (f st).rule = st.rule
  type : ∀ st, net.states[s]? = some st → (f st).kind.type = st.kind.type
  within : ∀ st, net.states[s]? = some st → (f st).Within net.states.size

theorem Wired.modify (h : net.Wired) (hf : net.Respects s f) : (net.modify s f).Wired := by
  refine h.of_keeps (keeps_modify fun st hst => ⟨hf.rule st hst, hf.type st hst⟩) ?_ rfl rfl rfl rfl
  intro t st ht
  rw [size_modify]
  by_cases hst : s = t
  · subst hst
    rw [getElem?_modify, if_pos rfl, Option.map_eq_some_iff] at ht
    obtain ⟨old, hold, rfl⟩ := ht
    exact ⟨(hf.number old hold).trans (h.number hold), hf.within old hold⟩
  · rw [getElem?_modify_of_ne hst] at ht
    exact ⟨h.number ht, h.within ht⟩

theorem Wired.respects_kind (h : net.Wired) {g : State → StateKind}
    (hg : ∀ st, net.states[s]? = some st → (g st).type = st.kind.type) :
    net.Respects s fun st => { st with kind := g st } where
  number _ _ := rfl
  rule _ _ := rfl
  type := hg
  within _ hst := ⟨(h.within hst).edges, (h.within hst).followed⟩

theorem Wired.respects_addEdge (h : net.Wired) {e : Edge} (he : e.Within net.states.size) :
    net.Respects s (·.addEdge e) where
  number _ _ := rfl
  rule _ _ := rfl
  type _ _ := rfl
  within st hst := by
    have hw := h.within hst
    refine ⟨fun e' he' => ?_, fun e' he' => ?_⟩
    · rcases List.mem_append.1 he' with he' | he'
      · exact hw.edges e' he'
      · rw [List.mem_singleton.1 he']
        exact he
    · cases ho : st.optimized with
      | none =>
        simp only [State.followed, State.addEdge, ho, Option.getD_none] at he'
        rcases List.mem_append.1 he' with he' | he'
        · exact hw.edges e' he'
        · rw [List.mem_singleton.1 he']
          exact he
      | some l =>
        refine hw.followed e' ?_
        simpa [State.followed, State.addEdge, ho] using he'

end modify

section addState

variable {kind : StateKind} {rule : Option Nat}

theorem getElem?_addState {s : Nat} {st : State} (h : net.states[s]? = some st) :
    (net.addState kind rule).2.states[s]? = some st := by
  show (net.states.push _)[s]? = _
  rw [Array.getElem?_push_lt (lt_size h)]
  exact h ▸ (Array.getElem?_eq_getElem (lt_size h)).symm

theorem getElem?_addState_new : (net.addState kind rule).2.states[net.states.size]? =
    some { number := net.states.size, rule, kind } := by
  show (net.states.push _)[_]? = _
  simp

theorem size_addState : (net.addState kind rule).2.states.size = net.states.size + 1 :=
  Array.size_push _

theorem getElem?_addState_eq {s : Nat} :
    (net.addState kind rule).2.states[s]? =
      if s = net.states.size then some { number := s, rule, kind } else net.states[s]? := by
  show (net.states.push _)[s]? = _
  rw [Array.getElem?_push]
  split
  · subst s
    rfl
  · rfl

theorem getElem?_addState_cases {s : Nat} {st : State}
    (h : (net.addState kind rule).2.states[s]? = some st) :
    net.states[s]? = some st ∨ s = net.states.size ∧ st = { number := s, rule, kind } := by
  have hs : s < net.states.size + 1 := size_addState ▸ lt_size h
  by_cases hlt : s < net.states.size
  · left
    rw [← h]
    exact (getElem?_addState (Array.getElem?_eq_getElem hlt)).symm ▸ Array.getElem?_eq_getElem hlt
  · obtain rfl : s = net.states.size := by omega
    rw [getElem?_addState_new] at h
    exact .inr ⟨rfl, (Option.some.inj h).symm⟩

theorem keeps_addState : Keeps net (net.addState kind rule).2 :=
  ⟨fun h => ⟨_, getElem?_addState h, rfl, rfl⟩⟩

theorem Wired.addState (h : net.Wired) : (net.addState kind rule).2.Wired := by
  refine h.of_keeps keeps_addState ?_ rfl rfl rfl rfl
  intro s st hs
  rw [size_addState]
  rcases getElem?_addState_cases hs with hs | ⟨-, rfl⟩
  · exact ⟨h.number hs, (h.within hs).mono (by omega)⟩
  · exact ⟨rfl, nofun, nofun⟩

end addState

end Network

end GrammarWalk
