import GrammarWalk.Parse.Choice
import GrammarWalk.Proofs.Network.Run
import Mathlib.Logic.Relation

/-! Paths from a decision, as trails take them: what a trail does without input, where it waits for
some, and which trails can take all the tokens ahead. -/

namespace GrammarWalk.Choice

/-- The trail can take the edge in its state, `st`: at the decision itself its one raw edge, later
any of those a search follows. -/
def Trail.Takes (t : Trail) (st : State) (e : Edge) : Prop :=
  match t.only with
  | some i => st.edges[i]? = some e
  | none => e ∈ st.followed

/--
One move without input. A call that is a tail call leaves the decision's invocation for good, any
other puts its follow state on the stack. A rule stop takes the top of the stack; when the stack is
empty, it goes on in the innermost live invocation that is left. In the decision's own invocation
the level of an edge of precedence must not be below the current one; all other predicates are
assumed to hold.
-/
inductive Moves (s : Setting) : Trail → Trail → Prop
  | back {t : Trail} {st : State} {caller : Nat} {stack : List Nat} :
      s.net.states[t.state]? = some st →
      st.isRuleStop = true → t.stack = caller :: stack → Moves s t { t with state := caller, stack }
  | out {t : Trail} {st : State} {outer caller : Nat} : s.net.states[t.state]? = some st →
      st.isRuleStop = true → t.stack = [] → t.outer = outer + 1 → s.follow[outer]? = some caller →
      Moves s t { t with state := caller, outer, leftOrigin := true }
  | push {t : Trail} {st : State} {c : Call} : s.net.states[t.state]? = some st →
      st.isRuleStop = false → t.Takes st (.call c) → c.optimizedTail = false →
      t.stack.length < maxCalls →
      Moves s t { t with state := c.start, only := none, stack := c.follow :: t.stack }
  | tail {t : Trail} {st : State} {c : Call} : s.net.states[t.state]? = some st →
      st.isRuleStop = false → t.Takes st (.call c) → c.optimizedTail = true →
      Moves s t { t with state := c.start, only := none, leftOrigin := true }
  | precedence {t : Trail} {st : State} {target : Nat} {level : Int} :
      s.net.states[t.state]? = some st →
      st.isRuleStop = false → t.Takes st (.precedence target level) →
      (t.stack = [] → t.leftOrigin = false → s.precedence ≤ level) →
      Moves s t { t with state := target, only := none }
  | silent {t : Trail} {st : State} {e : Edge} : s.net.states[t.state]? = some st →
      st.isRuleStop = false → t.Takes st e → e.isSilent = true → e.call? = none →
      (∀ target level, e ≠ .precedence target level) →
      Moves s t { t with state := e.target, only := none }

def Completes (s : Setting) (t : Trail) : Prop :=
  ∃ st, s.net.states[t.state]? = some st ∧ st.isRuleStop = true ∧ t.stack = [] ∧ t.outer = 0

/-- The trail can take an edge that takes input. -/
def Expects (s : Setting) (t : Trail) : Prop :=
  ∃ st, s.net.states[t.state]? = some st ∧ st.isRuleStop = false ∧ ∃ e, t.Takes st e ∧
    e.isSilent = false

/-- The trail can be sent over a symbol or is complete. -/
def Waits (s : Setting) (t : Trail) : Prop := Completes s t ∨ Expects s t

/-- The trail reads the symbol on an edge. -/
def Reads (s : Setting) (symbol : Int) (t t' : Trail) : Prop :=
  ∃ st e, s.net.states[t.state]? = some st ∧ st.isRuleStop = false ∧ t.Takes st e ∧
    e.accepts symbol Symbol.minToken s.net.maxToken = true ∧
    t' = { t with state := e.target, only := none }

/--
From where it waits, the trail can take all the symbols, and then either has completed the outermost
rule or takes the end of input on an edge, behind which a trail waits again.
-/
def Fits (s : Setting) : List Int → Trail → Prop
  | [], t => Completes s t ∨ ∃ t', Reads s Symbol.eof t t' ∧
      ∃ x, Relation.ReflTransGen (Moves s) t' x ∧ Waits s x
  | symbol :: symbols, t =>
    ∃ t', Reads s symbol t t' ∧ ∃ x, Relation.ReflTransGen (Moves s) t' x ∧ Fits s symbols x

/-- Some path of the trail takes all the symbols and comes to a good end. -/
def Viable (s : Setting) (symbols : List Int) (t : Trail) : Prop :=
  ∃ x, Relation.ReflTransGen (Moves s) t x ∧ Fits s symbols x

def origin (s : Setting) (decision i : Nat) : Trail :=
  { state := decision, alternative := i + 1, only := some i, outer := s.follow.size }

variable {s : Setting} {t t' : Trail} {st : State} {e : Edge}

theorem Trail.Takes.followed (he : t.Takes st e) (ht : t.only = none) : e ∈ st.followed := by
  rwa [Trail.Takes, ht] at he

theorem Moves.only_eq (hm : Moves s t t') (ht : t.only = none) : t'.only = none := by
  cases hm with
  | back | out => exact ht
  | push | tail | precedence | silent => rfl

theorem takes_of_edgesOf {edges : List Edge} (h : edgesOf st t = .ok edges) :
    e ∈ edges ↔ t.Takes st e := by
  unfold edgesOf at h
  unfold Trail.Takes
  cases hi : t.only with
  | some i =>
    simp only [hi, bind_eq_ok, Fault.ofLookup_eq_ok, pure_eq_ok] at h
    obtain ⟨e', he', rfl⟩ := h
    simp [he', eq_comm]
  | none =>
    simp only [hi, pure_eq_ok] at h
    simp [h]

end GrammarWalk.Choice
