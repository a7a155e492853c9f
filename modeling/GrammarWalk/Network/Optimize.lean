import GrammarWalk.Loop
import GrammarWalk.Network.Inline
import GrammarWalk.Network.Splice
import GrammarWalk.Network.Merge

/-!
The optimized edge lists: rounds of inlining, splicing and merging until one changes nothing. The
raw lists stay, so the numbers of a decision's alternatives stay too.
-/

namespace GrammarWalk.Network

/-- What an optimization did. The last round, which changed nothing, is counted. -/
structure Changes where
  rounds : Nat := 0
  inlined : Nat := 0
  spliced : Nat := 0
  merged : Nat := 0
deriving DecidableEq, Repr, Inhabited

def Changes.total (c : Changes) : Nat := c.inlined + c.spliced + c.merged

def optimizeOnce (net : Network) : Except Fault (Changes × Network) := do
  let (inlined, net) ← net.inlineCalls
  let (spliced, net) ← net.spliceEpsilons
  let (merged, net) ← net.mergeMatches
  return ({ rounds := 1, inlined, spliced, merged }, net)

def Changes.add (a b : Changes) : Changes :=
  { rounds := a.rounds + b.rounds, inlined := a.inlined + b.inlined,
    spliced := a.spliced + b.spliced,
    merged := a.merged + b.merged }

/-- One more round, with what all rounds did; it is the last if it changes nothing. -/
def optimizeRound (done : Changes × Network) : Except Fault (Bool × Changes × Network) := do
  let (changes, net) ← done.2.optimizeOnce
  return (changes.total = 0, done.1.add changes, net)

/-- Gives every state an optimized edge list and runs rounds until one changes nothing. -/
def optimize (net : Network) : Except Fault (Changes × Network) :=
  Loop.runOr .unfinished optimizeRound
    ({}, { net with states := net.states.map State.ensureOptimized })

end GrammarWalk.Network
