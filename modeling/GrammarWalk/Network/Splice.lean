import GrammarWalk.Network.Explore

/-!
Splicing, on the optimized edge lists: an epsilon edge into a state that only passes on is replaced
by the state's own edges. A state that can come back to itself in silence stays.
-/

namespace GrammarWalk.Network

/-- The state does nothing but pass on along epsilon edges. -/
def passesOn (st : State) : Bool := st.kind == .basic && st.isSilent && st.followed.all Edge.isPlain

/-- The targets of `hops` through which a search for `start` goes on, or nothing when one is
`start`. -/
def passingTargets (net : Network) (start : Nat) : List Edge → Except Fault (Option (List Nat))
  | [] => return some []
  | hop :: hops =>
    if hop.target = start then return none
    else do
      let st ← net.state hop.target
      let rest ← net.passingTargets start hops
      return rest.map fun ts => if passesOn st then hop.target :: ts else ts

/-- Whether `start` can come back to itself through states that only pass on. -/
def onSilentCycle (net : Network) (start : Nat) : Except Fault Bool :=
  return !(← exploreAll (fun s => do net.passingTargets start (← net.state s).followed)
    net.exploreBound [] [start])

/-- What replaces edge `e` of state `source`: the edges of the state it leads to, if that can go. -/
def spliceOf (net : Network) (source : Nat) (e : Edge) : Except Fault (Option (List Edge)) := do
  if !e.isPlain || e.target == source then return none
  let middle ← net.state e.target
  if middle.kind != .basic || !middle.isSilent then return none
  if ← net.onSilentCycle middle.number then return none
  let hops := middle.followed
  let canGo := !hops.isEmpty && hops.all fun hop =>
    hop.isPlain && hop.target != middle.number && hop.target != source
  return if canGo then some (hops.map fun hop => .plain hop.target) else none

def spliceEdges (net : Network) (source : Nat) : List Edge → Except Fault (Nat × List Edge)
  | [] => return (0, [])
  | e :: es => do
    let found ← net.spliceOf source e
    let (count, es) ← net.spliceEdges source es
    return match found with
      | some hops => (count + 1, hops ++ es)
      | none => (count, e :: es)

def spliceState (count : Nat) (net : Network) (s : Nat) : Except Fault (Nat × Network) := do
  let st ← net.state s
  if st.isRuleStop || st.followed.isEmpty || !st.followed.all Edge.isSilent then return (count, net)
  let (more, edges) ← net.spliceEdges s st.followed
  return if more = 0 then (count, net) else (count + more, net.setFollowed s edges)

/-- Splices in every state that takes no input and is no rule stop. -/
def spliceEpsilons (net : Network) : Except Fault (Nat × Network) :=
  (List.range net.states.size).foldlM (fun (count, net) s => spliceState count net s) (0, net)

end GrammarWalk.Network
