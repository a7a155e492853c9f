import GrammarWalk.SymbolSet.Basic

/-!
The names of token types. A type can have a literal name, such as `'+'`, and a symbolic one.
-/

namespace GrammarWalk

structure Vocabulary where
  literal : Array (Option String) := #[]
  symbolic : Array (Option String) := #[]
deriving DecidableEq, Repr, Inhabited

namespace Vocabulary

/-- Symbolic names only; an empty name is none. -/
def ofSymbolic (names : List String) : Vocabulary :=
  { symbolic := (names.map fun n => if n.isEmpty then none else some n).toArray }

/-- The greatest type that the vocabulary has room for, -1 if it is empty. -/
def maxToken (v : Vocabulary) : Int := (max v.literal.size v.symbolic.size : Nat) - 1

def nameIn (names : Array (Option String)) (type : Int) : Option String :=
  if type < 0 then none else names[type.toNat]?.join

def literalName? (v : Vocabulary) (type : Int) : Option String := nameIn v.literal type

def symbolicName? (v : Vocabulary) (type : Int) : Option String :=
  if type = Symbol.eof then some "EOF" else nameIn v.symbolic type

/-- The name shown for a type: the literal one, else the symbolic one, else the number. -/
def displayName (v : Vocabulary) (type : Int) : String :=
  if type = Symbol.eof then "<EOF>"
  else ((v.literalName? type).or (v.symbolicName? type)).getD (toString type)

def tokenType? (v : Vocabulary) (name : String) : Option Nat :=
  v.symbolic.toList.findIdx? (· == some name)

end Vocabulary

end GrammarWalk
