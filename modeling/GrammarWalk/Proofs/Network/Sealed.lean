import GrammarWalk.Proofs.Network.InRange
import GrammarWalk.Proofs.Network.Rewrite

/-! Networks whose rules are sealed off from each other, so that a parse is never in another rule
than its context says. Loading asks for none of this. -/

namespace GrammarWalk.Network

variable {net : Network}

def startsRule (net : Network) (s : Nat) : Bool := net.states[s]?.any State.isRuleStart

theorem isRuleStop_of_isRuleStart {st : State} (h : st.isRuleStart = true) :
    st.isRuleStop = false := by
  rw [State.isRuleStart] at h
  cases hk : st.kind <;> simp_all [StateKind.isRuleStart, State.isRuleStop]

theorem startsRule_of_isRuleStop {s : Nat} {st : State} (hst : net.states[s]? = some st)
    (h : st.isRuleStop = true) : net.startsRule s = false := by
  rw [startsRule, hst, Option.any_some, Bool.eq_false_iff]
  exact fun hstart => Bool.noConfusion (h.symm.trans (isRuleStop_of_isRuleStart hstart))

theorem isPrecedenceRule_eq_false (h : ∀ r < net.ruleStarts.size, net.isPrecedenceRule r = false)
    (r : Nat) : net.isPrecedenceRule r = false := by
  rcases Nat.lt_or_ge r net.ruleStarts.size with hr | hr
  · exact h r hr
  · simp [isPrecedenceRule, ruleStart?, Array.getElem?_eq_none hr]

/-- A rule is entered at its start and by calls only, a call is the one edge of its state, and all
other edges stay in their rule; a call goes on in the rule that makes it. Edges out of rule stops do
not count. -/
structure Sealed (net : Network) : Prop where
  start : ∀ {r s : Nat}, net.ruleStarts[r]? = some s → net.ownerOf s = some r
  call : ∀ {s : Nat} {st : State} {c : Call}, net.states[s]? = some st → .call c ∈ st.edges →
    st.edges = [.call c] ∧ net.ruleStarts[c.rule]? = some c.start
  inside : ∀ {s : Nat} {st : State} {e : Edge}, net.states[s]? = some st → st.isRuleStop = false →
    e ∈ st.edges →
    net.ownerOf e.onward = st.rule ∧ net.startsRule e.onward = false

/-- The same without regard to where a call goes on, with every state in a rule. -/
structure Partitioned (net : Network) : Prop where
  owned : ∀ st ∈ net.states.toList, ∃ r ∈ st.rule, r < net.ruleStarts.size
  start : ∀ p ∈ net.ruleStarts.toList.zipIdx, net.ownerOf p.1 = some p.2
  call : ∀ st ∈ net.states.toList, ∀ e ∈ st.edges, ∀ c ∈ e.call?,
    st.edges = [e] ∧ net.ruleStarts[c.rule]? = some c.start
  inside : ∀ st ∈ net.states.toList, st.isRuleStop = false → ∀ e ∈ st.edges, e.call? = none →
    net.ownerOf e.target = st.rule
  entered : ∀ st ∈ net.states.toList, ∀ e ∈ st.edges, e.call? = none →
    net.startsRule e.target = false

/-- Sealed rules, but for the number of calls out of a state. -/
structure Enclosed (net : Network) : Prop where
  start : ∀ {r s : Nat}, net.ruleStarts[r]? = some s → net.ownerOf s = some r
  call : ∀ {s : Nat} {st : State} {c : Call}, net.states[s]? = some st → .call c ∈ st.edges →
    net.ruleStarts[c.rule]? = some c.start
  inside : ∀ {s : Nat} {st : State} {e : Edge}, net.states[s]? = some st → st.isRuleStop = false →
    e ∈ st.edges →
    net.ownerOf e.onward = st.rule ∧ net.startsRule e.onward = false

/-- All calls out of one state go on in the same state. -/
def CallsAgree (net : Network) : Prop :=
  ∀ (s : Nat) (st : State) (c c' : Call), net.states[s]? = some st → .call c ∈ st.edges →
    .call c' ∈ st.edges →
    c.follow = c'.follow

theorem sealed_iff :
    net.Sealed ↔ net.Enclosed ∧ ∀ st ∈ net.states.toList, ∀ e ∈ st.edges, ∀ c ∈ e.call?,
    st.edges = [.call c] := by
  refine ⟨fun h => ⟨⟨h.start, fun hs hc => (h.call hs hc).2, h.inside⟩,
    forall_getElem?_iff.1 fun hs e he c hc => ?_⟩, fun ⟨h, halone⟩ =>
    ⟨h.start, fun hs hc => ⟨forall_getElem?_iff.2 halone hs _ hc _ rfl, h.call hs hc⟩, h.inside⟩⟩
  obtain rfl := Edge.call?_eq_some.1 hc
  exact (h.call hs he).1

theorem Sealed.enclosed (h : net.Sealed) : net.Enclosed := (sealed_iff.1 h).1

theorem Sealed.callsAgree (h : net.Sealed) : net.CallsAgree := by
  intro s st c c' hs hc hc'
  rw [(h.call hs hc).1, List.mem_singleton] at hc'
  rw [Edge.call.inj hc']

def MarksPrecedence (net : Network) : Prop :=
  ∀ (s : Nat) (st : State) (d : Decision) (loopback : Option Nat), net.states[s]? = some st →
    st.kind = .starLoopEntry d loopback true → st.rule.any net.isPrecedenceRule = true

instance (net : Network) : Decidable net.Enclosed :=
  decidable_of_iff ((∀ p ∈ net.ruleStarts.toList.zipIdx, net.ownerOf p.1 = some p.2) ∧
      (∀ st ∈ net.states.toList, ∀ e ∈ st.edges, ∀ c ∈ e.call?, net.ruleStarts[c.rule]? =
      some c.start) ∧ ∀ st ∈ net.states.toList, st.isRuleStop = false → ∀ e ∈ st.edges,
      net.ownerOf e.onward = st.rule ∧ net.startsRule e.onward = false) <| by
  constructor
  · rintro ⟨hstart, hcall, hinside⟩
    refine ⟨fun {r s} hr => hstart (s, r) ?_, fun hs hc => ?_, fun hs hns he => ?_⟩
    · rw [List.mk_mem_zipIdx_iff_getElem?, Array.getElem?_toList]
      exact hr
    · exact forall_getElem?_iff.2 hcall hs _ hc _ rfl
    · exact forall_getElem?_iff.2 hinside hs hns _ he
  · intro h
    refine ⟨fun p hp => h.start ?_, forall_getElem?_iff.1 fun hs e he c hc => ?_,
      forall_getElem?_iff.1 fun hs hns e he => h.inside hs hns he⟩
    · rw [← Array.getElem?_toList]
      exact List.mem_zipIdx_iff_getElem?.1 hp
    · obtain rfl := Edge.call?_eq_some.1 hc
      exact h.call hs he

instance (net : Network) : Decidable net.Sealed := decidable_of_iff _ sealed_iff.symm

instance (net : Network) : Decidable net.Partitioned :=
  decidable_of_iff (_ ∧ _ ∧ _ ∧ _ ∧ _)
    ⟨fun ⟨owned, start, call, inside, entered⟩ => ⟨owned, start, call, inside, entered⟩,
      fun h => ⟨h.owned, h.start, h.call, h.inside, h.entered⟩⟩

end GrammarWalk.Network
