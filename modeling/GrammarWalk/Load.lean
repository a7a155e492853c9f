import GrammarWalk.Network.Bypass
import GrammarWalk.Network.Optimize
import GrammarWalk.Network.TailCall
import GrammarWalk.Network.WellFormed
import GrammarWalk.Wire.Decode

/-!
Loading: from a word stream to a network that is ready for use.
-/

namespace GrammarWalk

/-- The steps of a load that can be left out. -/
structure LoadOptions where
  verify : Bool := true
  bypass : Bool := false
  optimize : Bool := true
deriving DecidableEq, Repr, Inhabited

/-- What a load does with a decoded network. A lexer has no bypasses. -/
def Network.prepare (net : Network) (options : LoadOptions) : Except LoadError Network := do
  let net ← if options.bypass ∧ net.kind = .parser then net.withBypasses else pure net
  if options.verify then net.check
  let net ← if options.optimize then do
      let (_, net) ← net.optimize
      if options.verify then net.check
      pure net
    else pure net
  net.withTailCalls

def loadWords (words : List Wire.Word) (options : LoadOptions) : Except LoadError Network := do
  (← Wire.decode words).prepare options

def loadBytes (bytes : List UInt8) (options : LoadOptions) : Except LoadError Network :=
  match Wire.ofBytes? bytes with
  | some words => loadWords words options
  | none => throw (.format (.oddByteLength bytes.length))

end GrammarWalk
