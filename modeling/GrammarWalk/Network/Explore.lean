import GrammarWalk.Network.Basic

/-!
A search through the states that can be reached from given ones, depth first, each state once.
-/

namespace GrammarWalk.Network

/--
Whether no state that is reached from `pending` stops the search. `next` gives the states that
follow a state, last one to be visited first, or nothing to stop.
-/
def exploreAll (next : Nat → Except Fault (Option (List Nat))) :
    Nat → List Nat → List Nat → Except Fault Bool
  | 0, _, _ => .error .unfinished
  | _ + 1, _, [] => return true
  | fuel + 1, seen, s :: pending =>
    if seen.contains s then exploreAll next fuel seen pending
    else do
      match ← next s with
      | none => return false
      | some targets => exploreAll next fuel (s :: seen) (targets.reverse ++ pending)

/-- A search visits a state once and takes each of its edges once. -/
def exploreBound (net : Network) : Nat := net.edgeCount + 3

end GrammarWalk.Network
