import GrammarWalk.Proofs.Network.Draft
import Mathlib.Logic.Relation

/-! Runs of a rule: paths from a state to a rule stop on which every call comes back. A run never
leaves a rule stop, so its calls and returns are balanced. The edges followed are those of a view of
the states, the raw lists or the lists a search follows. -/

namespace GrammarWalk

/-- Where a path goes on behind the edge when calls are passed over. -/
def Edge.onward : Edge → Nat
  | .call c => c.follow
  | e => e.target

namespace Network

/--
The symbols `w` lead from state `s` to the rule stop `t`. An edge that matches reads a symbol of the
vocabulary `lo` to `hi`, a call runs from its start to the stop of its rule and goes on at its
follow state, any other edge reads nothing. Nested calls add up to a cost of at most `n`.
-/
inductive Run (net : Network) (view : State → List Edge) (cost : Call → Nat) (lo hi : Int) :
    Nat → Nat → Nat → List Int → Prop
  | stop {n s : Nat} {st : State} : net.states[s]? = some st → st.isRuleStop = true →
      Run net view cost lo hi n s s []
  | silent {n s t : Nat} {w : List Int} {st : State} {e : Edge} : net.states[s]? = some st →
      st.isRuleStop = false → e ∈ view st → e.isSilent = true → e.call? = none →
      Run net view cost lo hi n e.target t w → Run net view cost lo hi n s t w
  | read {n s t : Nat} {w : List Int} {st : State} {e : Edge} {v : Int} : net.states[s]? = some st →
      st.isRuleStop = false → e ∈ view st → e.accepts v lo hi = true →
      Run net view cost lo hi n e.target t w → Run net view cost lo hi n s t (v :: w)
  | call {m n s t z : Nat} {u w : List Int} {st : State} {c : Call} : net.states[s]? = some st →
      st.isRuleStop = false → .call c ∈ view st → net.ruleStops[c.rule]? = some z →
      m + cost c ≤ n → Run net view cost lo hi m c.start z u →
      Run net view cost lo hi n c.follow t w → Run net view cost lo hi n s t (u ++ w)

/-- `w` labels a balanced path from `s` to the rule stop `t`, with any number of nested calls. -/
def Labels (net : Network) (view : State → List Edge) (lo hi : Int) (s t : Nat) (w : List Int) :
    Prop :=
  net.Run view (fun _ => 0) lo hi 0 s t w

def Onward (net : Network) (view : State → List Edge) (s t : Nat) : Prop :=
  ∃ st : State, net.states[s]? = some st ∧ st.isRuleStop = false ∧ ∃ e ∈ view st, e.onward = t

/-- A path within a rule, over calls and not past a rule stop. -/
def Leads (net : Network) (view : State → List Edge) : Nat → Nat → Prop :=
  Relation.ReflTransGen (net.Onward view)

/-- What is met on a path within a rule: a certain rule stop, or an edge that matches or calls. -/
inductive Sees (net : Network) (view : State → List Edge) : Nat → Option Nat → Prop
  | stop {s : Nat} {st : State} : net.states[s]? = some st → st.isRuleStop = true →
      Sees net view s (some s)
  | input {s : Nat} {st : State} {e : Edge} : net.states[s]? = some st → st.isRuleStop = false →
      e ∈ view st → e.matchesOrCalls = true → Sees net view s none
  | onward {s : Nat} {st : State} {e : Edge} {o : Option Nat} : net.states[s]? = some st →
      st.isRuleStop = false → e ∈ view st → Sees net view e.onward o → Sees net view s o

end Network

namespace Edge

theorem onward_of_call?_eq_none {e : Edge} (h : e.call? = none) : e.onward = e.target := by
  cases e <;> first | rfl | simp [call?] at h

theorem call?_eq_some {e : Edge} {c : Call} : e.call? = some c ↔ e = .call c := by
  cases e <;> simp [call?]

theorem not_accepts_of_isSilent {e : Edge} {v lo hi : Int} (h : e.isSilent = true) :
    e.accepts v lo hi = false := by
  cases e <;> simp_all [isSilent, accepts]

theorem isSilent_of_accepts {e : Edge} {v lo hi : Int} (h : e.accepts v lo hi = true) :
    e.isSilent = false := by
  cases hs : e.isSilent with
  | false => rfl
  | true => exact absurd h (by rw [not_accepts_of_isSilent hs]; decide)

theorem eq_plain {e : Edge} (h : e.isPlain = true) : e = .plain e.target := by
  cases e with
  | epsilon t r =>
    cases r with
    | none => rfl
    | some => cases h
  | _ => cases h

theorem isSilent_of_isPlain {e : Edge} (h : e.isPlain = true) :
    e.isSilent = true ∧ e.call? = none := by
  rw [eq_plain h]
  exact ⟨rfl, rfl⟩

theorem isPlain_of_accepts {e : Edge} {v lo hi : Int} (h : e.accepts v lo hi = true) :
    e.isPlain = false := by
  cases hp : e.isPlain with
  | false => rfl
  | true => rw [eq_plain hp] at h; cases h

theorem onward_of_isPlain {e : Edge} (h : e.isPlain = true) : e.onward = e.target :=
  onward_of_call?_eq_none (isSilent_of_isPlain h).2

theorem of_isLabelled {e : Edge} (h : e.isLabelled = true) :
    e.isSilent = false ∧ e.call? = none ∧ e.matchesOrCalls = true := by
  cases e <;> simp_all [isLabelled, isSilent, call?, matchesOrCalls]

end Edge

namespace Network

variable {net net' : Network} {view view' : State → List Edge} {cost : Call → Nat}
  {lo hi : Int} {n s t : Nat} {w : List Int} {st : State}

theorem Run.mono {m : Nat} (h : net.Run view cost lo hi m s t w) (hmn : m ≤ n) :
    net.Run view cost lo hi n s t w := by
  induction h generalizing n with
  | stop hs ht => exact .stop hs ht
  | silent hs ht he hsil hc _ ih => exact .silent hs ht he hsil hc (ih hmn)
  | read hs ht he ha _ ih => exact .read hs ht he ha (ih hmn)
  | call hs ht he hz hm hcall _ _ ih => exact .call hs ht he hz (Nat.le_trans hm hmn) hcall (ih hmn)

theorem Run.congr (h : net.Run view cost lo hi n s t w) (hstops : net'.ruleStops = net.ruleStops)
    (hv : ∀ {s : Nat} {st : State}, net.states[s]? = some st → ∃ st' : State,
      net'.states[s]? = some st' ∧ st'.isRuleStop = st.isRuleStop ∧ view' st' = view st) :
    net'.Run view' cost lo hi n s t w := by
  induction h with
  | stop hs ht =>
    obtain ⟨st', hs', hr, -⟩ := hv hs
    exact .stop hs' (hr.trans ht)
  | silent hs ht he hsil hc _ ih =>
    obtain ⟨st', hs', hr, hl⟩ := hv hs
    exact .silent hs' (hr.trans ht) (hl ▸ he) hsil hc ih
  | read hs ht he ha _ ih =>
    obtain ⟨st', hs', hr, hl⟩ := hv hs
    exact .read hs' (hr.trans ht) (hl ▸ he) ha ih
  | call hs ht he hz hm _ _ ih ih' =>
    obtain ⟨st', hs', hr, hl⟩ := hv hs
    exact .call hs' (hr.trans ht) (hl ▸ he) (hstops ▸ hz) hm ih ih'

theorem Run.of_stop (h : net.Run view cost lo hi n s t w) (hs : net.states[s]? = some st)
    (ht : st.isRuleStop = true) : t = s ∧ w = [] := by
  cases h with
  | stop => exact ⟨rfl, rfl⟩
  | silent hs' ht' => simp_all
  | read hs' ht' => simp_all
  | call hs' ht' => simp_all

theorem Run.first (h : net.Run view cost lo hi n s t w) (hs : net.states[s]? = some st)
    (ht : st.isRuleStop = false) : ∃ e ∈ view st,
      (e.isSilent = true ∧ e.call? = none ∧ net.Run view cost lo hi n e.target t w) ∨
      (∃ v u, w = v :: u ∧ e.accepts v lo hi = true ∧ net.Run view cost lo hi n e.target t u) ∨
      ∃ c m z u u', e = .call c ∧ w = u ++ u' ∧ net.ruleStops[c.rule]? = some z ∧
        m + cost c ≤ n ∧ net.Run view cost lo hi m c.start z u ∧
        net.Run view cost lo hi n c.follow t u' := by
  cases h with
  | stop hs' ht' => simp_all
  | silent hs' _ he hsil hc hrun =>
    obtain rfl := Option.some.inj (hs.symm.trans hs')
    exact ⟨_, he, .inl ⟨hsil, hc, hrun⟩⟩
  | read hs' _ he ha hrun =>
    obtain rfl := Option.some.inj (hs.symm.trans hs')
    exact ⟨_, he, .inr (.inl ⟨_, _, rfl, ha, hrun⟩)⟩
  | call hs' _ he hz hm hcall hrun =>
    obtain rfl := Option.some.inj (hs.symm.trans hs')
    exact ⟨_, he, .inr (.inr ⟨_, _, _, _, _, rfl, rfl, hz, hm, hcall, hrun⟩)⟩

theorem Sees.congr {o : Option Nat} (h : net.Sees view s o)
    (hv : ∀ {s : Nat} {st : State}, net.states[s]? = some st → ∃ st' : State,
      net'.states[s]? = some st' ∧ st'.isRuleStop = st.isRuleStop ∧ view' st' = view st) :
    net'.Sees view' s o := by
  induction h with
  | stop hs ht =>
    obtain ⟨st', hs', hr, -⟩ := hv hs
    exact .stop hs' (hr.trans ht)
  | input hs ht he hm =>
    obtain ⟨st', hs', hr, hl⟩ := hv hs
    exact .input hs' (hr.trans ht) (hl ▸ he) hm
  | onward hs ht he _ ih =>
    obtain ⟨st', hs', hr, hl⟩ := hv hs
    exact .onward hs' (hr.trans ht) (hl ▸ he) ih

theorem Sees.of_stop {o : Option Nat} (h : net.Sees view s o) (hs : net.states[s]? = some st)
    (ht : st.isRuleStop = true) : o = some s := by
  cases h with
  | stop => rfl
  | input hs' ht' => simp_all
  | onward hs' ht' => simp_all

theorem Sees.first {o : Option Nat} (h : net.Sees view s o) (hs : net.states[s]? = some st)
    (ht : st.isRuleStop = false) :
    (o = none ∧ ∃ e ∈ view st, e.matchesOrCalls = true) ∨
      ∃ e ∈ view st, net.Sees view e.onward o := by
  cases h with
  | stop hs' ht' => simp_all
  | input hs' _ he hm =>
    obtain rfl := Option.some.inj (hs.symm.trans hs')
    exact .inl ⟨rfl, _, he, hm⟩
  | onward hs' _ he hsees =>
    obtain rfl := Option.some.inj (hs.symm.trans hs')
    exact .inr ⟨_, he, hsees⟩

theorem Leads.sees {o : Option Nat} (h : net.Leads view s t) (ho : net.Sees view t o) :
    net.Sees view s o := by
  induction h using Relation.ReflTransGen.head_induction_on with
  | refl => exact ho
  | head hstep _ ih =>
    obtain ⟨st, hs, ht, e, he, rfl⟩ := hstep
    exact .onward hs ht he ih

end Network

end GrammarWalk
