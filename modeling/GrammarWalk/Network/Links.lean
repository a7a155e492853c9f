import GrammarWalk.LoadError
import GrammarWalk.Network.Basic

/-!
Links that follow from the edges: the start of each block end, the state that closes each loop, and
the loops in which a precedence rule decides whether to go on.
-/

namespace GrammarWalk.Network

/-- Links the end state of the block that starts in `s` back to it. -/
def linkBlock (net : Network) (s : Nat) : Except LoadError Network := do
  match (← net.state s).kind with
  | .blockStart _ none _ => throw (.defect (.missingEnd s))
  | .blockStart _ (some stop) _ =>
    match (← net.state stop).kind with
    | .blockEnd none => return net.modify stop fun st => { st with kind := .blockEnd (some s) }
    | .blockEnd (some first) => throw (.defect (.endClaimed stop first s))
    | _ => throw (.defect (.unexpectedKind stop .blockEnd))
  | _ => return net

/-- Links every block end; two blocks cannot share one. -/
def linkBlocks (net : Network) : Except LoadError Network :=
  (List.range net.states.size).foldlM linkBlock net

/-- Makes `s` the loopback of a state at which a `+` loop starts. -/
def closePlus (s : Nat) (st : State) : State :=
  match st.kind with
  | .blockStart (.plus _) stop d => { st with kind := .blockStart (.plus (some s)) stop d }
  | _ => st

/-- Makes `s` the loopback of a state at which a `*` loop is entered. -/
def closeStar (s : Nat) (st : State) : State :=
  match st.kind with
  | .starLoopEntry d _ p => { st with kind := .starLoopEntry d (some s) p }
  | _ => st

/-- Links the loops that state `s` closes. -/
def linkLoop (net : Network) (s : Nat) : Except Fault Network := do
  let st ← net.state s
  let close (f : State → State) := st.edges.foldlM (fun (net : Network) e => do
    let _ ← net.state e.target
    return net.modify e.target f) net
  match st.kind with
  | .plusLoopBack _ => close (closePlus s)
  | .starLoopBack => close (closeStar s)
  | _ => return net

def linkLoops (net : Network) : Except Fault Network :=
  (List.range net.states.size).foldlM linkLoop net

/--
The last edge of `entry` leads to a loop end, and the only way on from there is into a rule stop.
-/
def exitsToRuleStop (net : Network) (entry : State) : Except Fault Bool :=
  match entry.edges.getLast? with
  | none => return false
  | some last => do
    let out ← net.state last.target
    if out.kind.isLoopEnd && out.isSilent then
      match out.edges.head? with
      | none => return false
      | some e => return (← net.state e.target).isRuleStop
    else return false

def markPrecedence (net : Network) (s : Nat) : Except Fault Network := do
  let st ← net.state s
  match st.kind with
  | .starLoopEntry d loopback _ =>
    if st.rule.any net.isPrecedenceRule then
      if ← net.exitsToRuleStop st then
        return net.modify s fun st => { st with kind := .starLoopEntry d loopback true }
      else return net
    else return net
  | _ => return net

/-- Marks the loop entries in which a precedence rule decides whether to go on. -/
def markPrecedences (net : Network) : Except Fault Network :=
  (List.range net.states.size).foldlM markPrecedence net

end GrammarWalk.Network
