import GrammarWalk.Network.Basic

/-!
Inlining, on the optimized edge lists: a call of a rule that does no more than match one symbol is
replaced by that match.
-/

namespace GrammarWalk.Network

/-- Goes on along single epsilon edges from `s` until there is a choice, a match or a cycle. -/
def skipEpsilons (net : Network) : Nat → List Nat → Nat → Except Fault State
  | 0, _, _ => .error .unfinished
  | fuel + 1, seen, s => do
    let st ← net.state s
    match st.followed with
    | [.epsilon target _] =>
      if st.isSilent && !seen.contains s then net.skipEpsilons fuel (s :: seen) target
        else return st
    | _ => return st

/-- The one match of a rule: epsilon edges, the match, an epsilon edge into the rule's stop. -/
def soleMatch (net : Network) (rule start : Nat) : Except Fault (Option Edge) := do
  let middle ← net.skipEpsilons (net.states.size + 2) [] start
  match middle.followed with
  | [matched] =>
    if matched.isLabelled then
      let after ← net.state matched.target
      match after.followed with
      | [.epsilon target _] =>
        if after.isSilent then
          let stop ← Fault.ofLookup net.ruleStops[rule]?
          return if target = stop then some matched else none
        else return none
      | _ => return none
    else return none
  | _ => return none

def soleMatches (net : Network) : Except Fault (List (Option Edge)) :=
  net.ruleStarts.toList.zipIdx.mapM fun (start, rule) => net.soleMatch rule start

/-- The match that can stand for an edge: that of the rule it calls. -/
def inlineOf (net : Network) (sole : List (Option Edge)) : Edge → Option (Call × Edge)
  | .call c => do
    let start ← net.states[c.start]?
    let matched ← sole[start.rule.getD c.rule]?
    return (c, ← matched)
  | _ => none

/--
Replaces the calls of an edge list that have a match, each by an epsilon edge to a new state with
the match, and counts them.
-/
def inlineEdges (sole : List (Option Edge)) (net : Network) :
    List Edge → Except Fault (Nat × List Edge × Network)
  | [] => return (0, [], net)
  | e :: es =>
    match net.inlineOf sole e with
    | none => do
      let (count, es, net) ← inlineEdges sole net es
      return (count, e :: es, net)
    | some (c, matched) => do
      let follow ← net.state c.follow
      let (fresh, net) := net.addState .basic follow.rule
      let matched := matched.retarget c.follow
      let net := net.modify fresh fun st =>
        { st with edges := [matched], optimized := some [matched] }
      let (count, es, net) ← inlineEdges sole net es
      return (count + 1, .plain fresh :: es, net)

/-- Inlines in one state, if it belongs to a rule. -/
def inlineState (sole : List (Option Edge)) (count : Nat) (net : Network) (s : Nat) :
    Except Fault (Nat × Network) := do
  let st ← net.state s
  if st.rule.isNone || st.followed.all (net.inlineOf sole · |>.isNone) then return (count, net)
  let (more, edges, net) ← inlineEdges sole net st.followed
  return (count + more, net.setFollowed s edges)

def inlineCalls (net : Network) : Except Fault (Nat × Network) := do
  let sole ← net.soleMatches
  if sole.all Option.isNone then return (0, net)
  (List.range net.states.size).foldlM (fun (count, net) s => inlineState sole count net s) (0, net)

end GrammarWalk.Network
