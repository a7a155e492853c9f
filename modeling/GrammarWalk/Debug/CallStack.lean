/-!
The rules that a debugged parse is inside of, each with the parts of its outline it has come to.
-/

namespace GrammarWalk

structure Frame where
  rule : Nat
  name : String
  /-- The file the rule is declared in, if it is known. -/
  source : Option String := none
  /-- The parts of the outline that were matched last. -/
  current : List Nat := []
  /-- The parts that will be matched next. -/
  next : List Nat := []
deriving DecidableEq, Repr, Inhabited

structure CallStack where
  /-- The frames, innermost first. -/
  frames : List Frame := []
deriving DecidableEq, Repr, Inhabited

namespace CallStack

def push (s : CallStack) (f : Frame) : CallStack := { frames := f :: s.frames }

def pop (s : CallStack) : CallStack := { frames := s.frames.tail }

def current? (s : CallStack) : Option Frame := s.frames.head?

def replace (s : CallStack) (f : Frame) : CallStack := s.pop.push f

def depth (s : CallStack) : Nat := s.frames.length

/-- The frames, outermost first. -/
def toList (s : CallStack) : List Frame := s.frames.reverse

end CallStack

end GrammarWalk
