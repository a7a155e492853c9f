import GrammarWalk.Proofs.Network.Wired
import GrammarWalk.Proofs.Outcome

/-! A network whose references are in range: each names a state of the network, or is a state's own
number. No more is asked of it than that no look-up fails. -/

namespace GrammarWalk.Network

variable {net : Network} {s : Nat} {st : State}

structure InRange (net : Network) : Prop where
  number : ∀ {s : Nat} {st : State}, net.states[s]? = some st → st.number = s
  within : ∀ {s : Nat} {st : State}, net.states[s]? = some st → st.Within net.states.size
  start : ∀ {r s : Nat}, net.ruleStarts[r]? = some s → s < net.states.size
  stop : ∀ {r s : Nat}, net.ruleStops[r]? = some s → s < net.states.size
  /-- Each rule has a stop state. -/
  stops : net.ruleStarts.size ≤ net.ruleStops.size
  decision : ∀ {d s : Nat}, net.decisions[d]? = some s → s < net.states.size

theorem Wired.inRange (h : net.Wired) (hs : net.ruleStarts.size ≤ net.ruleStops.size) :
    net.InRange where
  number := h.number
  within := h.within
  start hr := have ⟨_, hst, _⟩ := h.start hr; lt_size hst
  stop hr := have ⟨_, hst, _⟩ := h.stop hr; lt_size hst
  stops := hs
  decision hd := have ⟨_, hst, _⟩ := h.decision hd; lt_size hst

theorem forall_getElem?_iff {α : Type} {a : Array α} {P : α → Prop} :
    (∀ {i : Nat} {x : α}, a[i]? = some x → P x) ↔ ∀ x ∈ a.toList, P x := by
  constructor
  · intro h x hx
    obtain ⟨i, hi⟩ := Array.getElem?_of_mem (Array.mem_toList_iff.1 hx)
    exact h hi
  · exact fun h i x hx => h x (Array.mem_toList_iff.2 (Array.mem_of_getElem? hx))

instance (net : Network) : Decidable net.InRange :=
  decidable_of_iff ((∀ s, (h : s < net.states.size) → net.states[s].number = s) ∧
      (∀ st ∈ net.states.toList, st.Within net.states.size) ∧ (∀ s ∈ net.ruleStarts.toList, s <
      net.states.size) ∧ (∀ s ∈ net.ruleStops.toList, s < net.states.size) ∧ net.ruleStarts.size ≤
      net.ruleStops.size ∧ ∀ s ∈ net.decisions.toList, s < net.states.size) <| by
  constructor
  · rintro ⟨hn, hw, hstart, hstop, hstops, hd⟩
    refine ⟨fun hs => ?_, forall_getElem?_iff.2 hw, forall_getElem?_iff.2 hstart,
      forall_getElem?_iff.2 hstop, hstops, forall_getElem?_iff.2 hd⟩
    obtain ⟨hlt, rfl⟩ := Array.getElem?_eq_some_iff.1 hs
    exact hn _ hlt
  · rintro ⟨hn, hw, hstart, hstop, hstops, hd⟩
    exact ⟨fun s h => hn (Array.getElem?_eq_getElem h), forall_getElem?_iff.1 hw,
      forall_getElem?_iff.1 hstart, forall_getElem?_iff.1 hstop, hstops, forall_getElem?_iff.1 hd⟩

theorem returns_state (h : s < net.states.size) :
    Returns (net.state s) fun st => net.states[s]? = some st :=
  returns_ofLookup (Array.getElem?_eq_getElem h) (Array.getElem?_eq_getElem h)

namespace InRange

variable (h : net.InRange)
include h

theorem target_lt (hs : net.states[s]? = some st) {e : Edge} (he : e ∈ st.followed) :
    e.target < net.states.size := ((h.within hs).followed e he).1

theorem follow_lt (hs : net.states[s]? = some st) {c : Call} (hc : .call c ∈ st.followed) :
    c.follow < net.states.size := ((h.within hs).followed _ hc).2 c rfl

theorem of_states {states : Array State} (hsize : net.states.size ≤ states.size)
    (hs : ∀ {s : Nat} {st : State}, states[s]? = some st → st.number = s ∧ st.Within states.size) :
    ({ net with states } : Network).InRange where
  number hst := (hs hst).1
  within hst := (hs hst).2
  start hr := Nat.lt_of_lt_of_le (h.start hr) hsize
  stop hr := Nat.lt_of_lt_of_le (h.stop hr) hsize
  stops := h.stops
  decision hd := Nat.lt_of_lt_of_le (h.decision hd) hsize

end InRange

end GrammarWalk.Network
