import GrammarWalk.Network.Links

/-!
Bypasses: a token of its own for each parser rule, which stands for the whole rule. A new block runs
either the rule's body or the token.
-/

namespace GrammarWalk.Network

/-- The loop entry at which the prefix of a precedence rule ends. -/
def precedencePrefixEnd (net : Network) (rule : Nat) : Except Fault (Option State) :=
  (net.states.toList.filter fun st => st.rule == some rule && st.kind.isStarLoopEntry).findM?
    net.exitsToRuleStop

/--
Where the part of a rule that a bypass spans ends, and the state whose first edge stays as it is: of
a precedence rule only the prefix before its loop is spanned, and the loop goes on as before.
-/
def bypassedPart (net : Network) (rule : Nat) : Except LoadError (Nat × Option Nat) := do
  if net.isPrecedenceRule rule then
    match ← net.precedencePrefixEnd rule with
    | none => throw (.defect (.prefixNotFound rule))
    | some entry =>
      match entry.kind with
      | .starLoopEntry _ (some loopback) _ => return (entry.number, some loopback)
      | _ => throw (.defect (.missingLoopback entry.number))
  else return (← Fault.ofLookup net.ruleStops[rule]?, none)

/-- Sends every edge into `old` to `new`, but for the first edge of the state `kept`. -/
def redirect (net : Network) (old new : Nat) (kept : Option Nat) : Network :=
  { net with states := net.states.mapIdx fun s st =>
    { st with edges := st.edges.mapIdx fun i e =>
      if e.target = old ∧ ¬ (kept = some s ∧ i = 0) then e.retarget new else e } }

/-- Adds the block that either runs a rule or takes the rule's own token. -/
def addBypass (net : Network) (rule : Nat) : Except LoadError Network := do
  let (start, net) := net.addState (.blockStart .plain (some (net.states.size + 1)) {}) (some rule)
  let (stop, net) := net.addState (.blockEnd (some start)) (some rule)
  let net ← match net.defineDecision start with
    | some (_, net) => pure net
    | none => throw (.defect (.duplicateDecision start))
  let (partEnd, kept) ← net.bypassedPart rule
  let net := net.redirect partEnd stop kept
  let ruleStart ← Fault.ofLookup net.ruleStarts[rule]?
  let body := (← net.state ruleStart).edges
  let net := net.modify ruleStart fun st => { st with edges := [.plain start] }
  let net := net.modify start fun st => { st with edges := st.edges ++ body }
  let net := net.addEdge stop (.plain partEnd)
  let (taking, net) := net.addState .basic (some rule)
  let token ← Fault.ofLookup net.ruleTokens[rule]?
  let net := net.addEdge taking (.atom stop token)
  return net.addEdge start (.plain taking)

/-- Adds a bypass for every rule; the tokens follow those of the grammar in the order of the
rules. -/
def withBypasses (net : Network) : Except LoadError Network :=
  let rules := List.range net.ruleCount
  rules.foldlM addBypass
    { net with ruleTokens := (rules.map fun (r : Nat) => net.maxToken + r + 1).toArray }

end GrammarWalk.Network
