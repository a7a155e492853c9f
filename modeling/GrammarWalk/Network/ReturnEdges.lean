import GrammarWalk.Network.Basic

/-!
Return edges: from the stop state of a called rule to each state in which a caller goes on.
-/

namespace GrammarWalk.Network

/-- One return: the called rule, where its caller goes on, and the mark of an outermost return. -/
structure Return where
  rule : Nat
  follow : Nat
  mark : Option Nat
deriving DecidableEq, Repr, Inhabited

/-- The rule a call enters: that of the state it leads to, else the one the call names. -/
def calledRule (net : Network) (c : Call) : Nat :=
  (net.states[c.start]?.bind (·.rule)).getD c.rule

/--
The return of a call made in a state of rule `caller`. A call from a rule that is not left-factored
into one that is has none. A precedence rule called at level 0 is marked.
-/
def returnOf (net : Network) (caller : Option Nat) (c : Call) : Option Return :=
  let rule := net.calledRule c
  if !caller.any net.isLeftFactored && net.isLeftFactored rule then none
  else
    let marked := net.isPrecedenceRule rule && c.precedence == 0
    some { rule, follow := c.follow, mark := if marked then some rule else none }

/-- The returns of all calls in the order of states and edges, each once. -/
def returns (net : Network) : List Return :=
  (net.states.toList.flatMap fun st =>
    st.edges.filterMap fun e => e.call?.bind (net.returnOf st.rule)).eraseDups

/-- Appends one return edge to the stop state of its rule; a rule without one gets none. -/
def addReturn (net : Network) (r : Return) : Except Fault (Nat × Network) :=
  match net.ruleStops[r.rule]? with
  | none => return (0, net)
  | some stop => do
    let _ ← net.state stop
    return (1, net.addEdge stop (.epsilon r.follow r.mark))

def addReturns (net : Network) : List Return → Except Fault (Nat × Network)
  | [] => return (0, net)
  | r :: rs => do
    let (added, net) ← net.addReturn r
    let (more, net) ← net.addReturns rs
    return (added + more, net)

/-- The network with its return edges, and how many there are. -/
def withReturnEdges (net : Network) : Except Fault (Nat × Network) := net.addReturns net.returns

end GrammarWalk.Network
