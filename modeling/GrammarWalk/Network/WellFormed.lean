import GrammarWalk.LoadError
import GrammarWalk.Network.Basic

/-!
The conditions on the shape of each state that a loaded network meets.
-/

namespace GrammarWalk.Network

def require (st : State) (holds : Bool) (condition : Condition) : Except LoadError Unit :=
  if holds then return () else throw (.defect (.unsound st.number condition))

/-- The kind of state that the edge at `position` leads to. -/
def kindAhead (net : Network) (st : State) (position : Nat) : Except Fault (Option StateKind) :=
  match st.edges[position]? with
  | none => return none
  | some e => return some (← net.state e.target).kind

def checkKind (net : Network) (st : State) : Except LoadError Unit := do
  match st.kind with
  | .blockStart flavor stop _ =>
    match flavor with
    | .plus loopback => require st loopback.isSome .plusLoopback
    | _ => pure ()
    require st stop.isSome .blockEnd
  | .starLoopEntry _ loopback _ =>
    require st loopback.isSome .starLoopback
    require st (st.edges.length == 2) .starTwoEdges
    let first ← net.kindAhead st 0
    let second ← net.kindAhead st 1
    if first.any (·.isStarBlockStart) then
      require st (second.any (·.isLoopEnd)) .greedyExit
      require st (!st.isNonGreedy) .enteredFirstGreedy
    else if first.any (·.isLoopEnd) then
      require st (second.any (·.isStarBlockStart)) .nonGreedyEntry
      require st st.isNonGreedy .exitedFirstNonGreedy
    else require st false .starBlockAndExit
  | .starLoopBack =>
    require st (st.edges.length == 1) .loopbackOneEdge
    require st ((← net.kindAhead st 0).any (·.isStarLoopEntry)) .loopbackToEntry
  | .loopEnd loopback => require st loopback.isSome .loopEndLoopback
  | .ruleStart stop _ _ => require st stop.isSome .ruleStop
  | .blockEnd start => require st start.isSome .blockStart
  | _ => pure ()

/-- All conditions on a state. A state with several edges takes no input and is a decision. -/
def checkState (net : Network) (st : State) : Except LoadError Unit := do
  let several := st.edges.length > 1
  require st (st.isSilent || !several) .severalNeedSilent
  net.checkKind st
  if st.kind.decision?.isSome then
    require st (!several || st.decision?.isSome) .decisionNumber
  else require st (!several || st.isRuleStop) .onlyDecisionsBranch

/-- Checks every state; the first that fails a condition is named. Invalid states meet all. -/
def check (net : Network) : Except LoadError Unit :=
  net.states.toList.forM fun st => if st.kind = .invalid then pure () else net.checkState st

end GrammarWalk.Network
