/-!
What can go wrong in a walk over a network or a parse that no check has cleared: an index that names
no entry of its table, or a search without end.
-/

namespace GrammarWalk

inductive Fault
  /-- An index names no entry of its table. -/
  | dangling
  /-- A search used up its bound, or a loop has no end. -/
  | unfinished
deriving DecidableEq, Repr, Inhabited

namespace Fault

/-- The entry, or `dangling` when there is none. -/
def ofLookup {α : Type} : Option α → Except Fault α
  | some a => .ok a
  | none => .error .dangling

@[simp] theorem ofLookup_some {α : Type} (a : α) : ofLookup (some a) = .ok a := rfl

@[simp] theorem ofLookup_none {α : Type} : ofLookup (none : Option α) = .error dangling := rfl

theorem ofLookup_eq_ok {α : Type} {o : Option α} {a : α} : ofLookup o = .ok a ↔ o = some a := by
  cases o <;> simp

end Fault

end GrammarWalk
