import GrammarWalk.Network.Explore

/-!
Tail calls: calls after which the calling rule has nothing left but epsilon edges. Each call is
judged twice, over the raw and over the optimized edge lists.
-/

namespace GrammarWalk.Network

/-- Whether nothing but epsilon edges, along the lists `edges`, leads from `follow` to rule
stops. -/
def endsSilently (net : Network) (edges : State → List Edge) (follow : Nat) : Except Fault Bool :=
  exploreAll (fun s => do
    let st ← net.state s
    if st.isRuleStop then return some []
    else if st.isSilent && (edges st).all
      Edge.isEpsilon then return some ((edges st).map Edge.target)
    else return none) net.exploreBound [] [follow]

/-- Sets both tail-call flags of a call edge. -/
def judgeTail (net : Network) : Edge → Except Fault Edge
  | .call c => do
    let tail ← net.endsSilently State.edges c.follow
    let optimizedTail ← net.endsSilently State.followed c.follow
    return .call { c with tail, optimizedTail }
  | e => return e

/-- The network with the tail-call flags of every call, in both edge lists, set. -/
def withTailCalls (net : Network) : Except Fault Network := do
  let states ← net.states.mapM fun st => do
    let edges ← st.edges.mapM net.judgeTail
    let optimized ← st.optimized.mapM fun es => es.mapM net.judgeTail
    return { st with edges, optimized }
  return { net with states }

end GrammarWalk.Network
