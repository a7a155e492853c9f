import GrammarWalk.Network.Defect
import GrammarWalk.Wire.Error

/-!
Why a word stream does not load: the words are no stream, or the network they describe is not sound.
-/

namespace GrammarWalk

inductive LoadError
  | format (e : Wire.FormatError)
  | defect (d : Defect)
  | fault (f : Fault)
deriving DecidableEq, Repr, Inhabited

def LoadError.message : LoadError → String
  | format e => e.message
  | defect d => d.message
  | fault _ => "the network names a state that it does not have"

/-- Lets a walk over a network run inside a load. -/
instance : MonadLift (Except Fault) (Except LoadError) := ⟨fun x => x.mapError .fault⟩

/-- Lets a check of a network run inside a load. -/
instance : MonadLift (Except Defect) (Except LoadError) := ⟨fun x => x.mapError .defect⟩

end GrammarWalk
