import GrammarWalk.Network.Basic

/-!
Requests that make no sense for the networks or the session at hand.
-/

namespace GrammarWalk

inductive Misuse
  | wrongKind (expected found : GrammarKind)
  | unknownRule (rule count : Nat)
  | noModes
  | notStarted
deriving DecidableEq, Repr, Inhabited

def Misuse.message : Misuse → String
  | wrongKind expected found => s!"expected a {expected.text} ATN but got a {found.text} ATN"
  | unknownRule rule count => s!"rule index {rule} is out of range ({count} rules)"
  | noModes => "the lexer ATN defines no modes"
  | notStarted => "the debugger has not been started"

/-- Why a run gives no result. -/
inductive RunError
  | misuse (m : Misuse)
  | fault (f : Fault)
deriving DecidableEq, Repr, Inhabited

/-- Lets a walk over a network run inside a session. -/
instance : MonadLift (Except Fault) (Except RunError) := ⟨fun x => x.mapError .fault⟩

end GrammarWalk
