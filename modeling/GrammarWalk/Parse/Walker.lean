import GrammarWalk.Network.LookAhead
import GrammarWalk.Parse.Choice
import GrammarWalk.Parse.Tree

/-!
A parse, one edge at a time. The walker stands on a state of the network, inside the rules whose
nodes lead from its context to the root of the tree. A precedence rule wraps what it has parsed each
time it goes round its loop. After a failure the walker goes to the end of the rule and passes over
tokens until one fits after some rule that it is inside of.
-/

namespace GrammarWalk

/-- An open invocation of a precedence rule: the context and the state it was called from. -/
structure Recursion where
  context : Option Nat
  invoking : Option Nat
deriving DecidableEq, Repr, Inhabited

structure Walker where
  net : Network
  tokens : Tokens
  tree : Tree := {}
  state : Nat := 0
  /-- The node of the rule being parsed. -/
  context : Option Nat := none
  startRule : Nat := 0
  /-- The levels of the open invocations of precedence rules, innermost first. -/
  levels : List Int := [0]
  /-- The open invocations of precedence rules, innermost first. -/
  recursions : List Recursion := []
  /-- The current token at the last failure. -/
  lastErrorIndex : Option Nat := none
  /-- The states to which the failures so far have recovered. -/
  errorStates : List Nat := []
  failures : List Failure := []
  finished : Bool := false
deriving Repr, Inhabited

namespace Walker

/-- The level of precedence of the innermost open invocation. -/
def level (w : Walker) : Int := w.levels.head?.getD 0

/-- The node of the rule being parsed, if there is one. -/
def contextNode? (w : Walker) : Except Fault (Option RuleNode) :=
  match w.context with
  | some node => w.tree.ruleNode? node
  | none => return none

def atRoot (w : Walker) : Except Fault Bool := do
  return (← w.contextNode?).all (·.invoking.isNone)

def followOf (w : Walker) (s : Nat) : Except Fault (Option Nat) := do
  return (← w.net.state s).edges.findSome? fun e => e.call?.map (·.follow)

/-- Where the rules from node `node` up go on, innermost first. -/
def followFrom (w : Walker) : Nat → Option Nat → Except Fault (List Nat)
  | _, none => return []
  | 0, some _ => .error .unfinished
  | depth + 1, some node => do
    match ← w.tree.ruleNode? node with
    | none => return []
    | some r =>
      let follow ← match r.invoking with
        | some s => w.followOf s
        | none => pure none
      return follow.toList ++ (← w.followFrom depth r.parent)

def followStates (w : Walker) : Except Fault (List Nat) := do
  return (← w.followFrom (w.tree.size + 1) w.context).reverse

/-- Stands on the start state of a rule whose node is made, as the last child of its parent. -/
def enterRule (w : Walker) (node start : Nat) : Except Fault Walker := do
  let parent := (← w.tree.ruleNode? node).bind (·.parent)
  let tree ← match parent with
    | some parent => w.tree.attach parent node
    | none => pure w.tree
  return { w with tree, state := start, context := some node }

/-- The same for a precedence rule, whose node its parent lists when the rule is done. -/
def enterRecursion (w : Walker) (node start : Nat) (level : Int) : Except Fault Walker := do
  let invoking := (← w.tree.ruleNode? node).bind (·.invoking)
  return { w with
    state := start, context := some node, levels := level :: w.levels
    recursions := { context := w.context, invoking } :: w.recursions }

def enterRoot (w : Walker) (rule : Nat) : Except Fault Walker := do
  let start ← Fault.ofLookup w.net.ruleStarts[rule]?
  let (root, tree) := w.tree.addRule rule none none w.tokens.position
  let w := { w with tree, startRule := rule }
  if w.net.isPrecedenceRule rule then w.enterRecursion root start 0 else w.enterRule root start

def wrap (w : Walker) (ruleStart : Nat) : Except Fault Walker := do
  match w.context, ← w.contextNode? with
  | some previous, some r =>
    let outer := w.recursions.head?.getD { context := none, invoking := none }
    let (wrapper, tree) := w.tree.addRule r.rule outer.context outer.invoking r.start
    let tree ← tree.reparent previous wrapper
    let tree ← tree.modifyRule previous fun r =>
      { r with invoking := some ruleStart, stop := w.tokens.previous? }
    return { w with tree, context := some wrapper }
  | _, _ => return w

/-- Closes the current node and lists it under `parent`. -/
def unwind (w : Walker) (parent : Option Nat) : Except Fault Walker := do
  let w := { w with levels := w.levels.tail }
  match w.context with
  | none => return w
  | some done =>
    let tree ← w.tree.modifyRule done fun r => { r with stop := w.tokens.previous?, parent }
    let tree ← match parent with
      | some parent => tree.attach parent done
      | none => pure tree
    return { w with tree, context := parent }

/-- Closes the current node and goes back to the state that called the rule. -/
def exitRule (w : Walker) : Except Fault Walker := do
  match w.context with
  | none => return w
  | some node =>
    match ← w.tree.ruleNode? node with
    | none => return { w with context := none }
    | some r =>
      let tree ← w.tree.modifyRule node fun r => { r with stop := w.tokens.previous? }
      return { w with tree, context := r.parent, state := r.invoking.getD w.state }

def finishRoot (w : Walker) : Except Fault Walker := do
  let w ← if w.net.isPrecedenceRule w.startRule then
      let outer := w.recursions.head?.bind (·.context)
      unwind { w with recursions := w.recursions.tail } outer
    else w.exitRule
  return { w with finished := true }

/-- Returns from the rule on whose stop state the walker stands. -/
def visitStop (w : Walker) : Except Fault Walker := do
  let rule := (← w.net.state w.state).rule.getD 0
  let w ← if w.net.isPrecedenceRule rule then do
      let outer := w.recursions.head?.getD { context := none, invoking := none }
      let w ← unwind { w with recursions := w.recursions.tail } outer.context
      pure { w with state := outer.invoking.getD w.state }
    else w.exitRule
  return { w with state := (← w.followOf w.state).getD w.state }

/-- Takes the current token as a leaf if it fits. -/
def takeToken (w : Walker) (fits : Int → Bool) : Except Fault (Except Failure Walker) := do
  if fits w.tokens.ahead then
    let tree ← match w.context with
      | some node => do
        let (_, tree) ← w.tree.addLeaf node w.tokens.position
        pure tree
      | none => pure w.tree
    return .ok { w with tree, tokens := w.tokens.advance }
  else
    let expected ← w.net.expectedSymbols w.state (← w.followStates)
    return .error (.mismatch w.state w.tokens.position expected)

/-- What an edge does, but for going to its target. -/
def takeEdge (w : Walker) (st : State) (e : Edge) : Except Fault (Except Failure Walker) := do
  match e with
  | .epsilon target _ =>
    match st.kind with
    | .starLoopEntry _ _ true =>
      if (← w.net.state target).kind.isLoopEnd then return .ok w
      else return .ok (← w.wrap (← Fault.ofLookup w.net.ruleStarts[st.rule.getD 0]?))
    | _ => return .ok w
  | .atom _ symbol => w.takeToken (· == symbol)
  | .range .. | .set .. | .notSet .. =>
    w.takeToken fun symbol => e.accepts symbol Symbol.minToken w.net.maxToken
  | .wildcard _ => w.takeToken (· != Symbol.eof)
  | .call c =>
    let (node, tree) := w.tree.addRule c.rule w.context (some w.state) w.tokens.position
    let w := { w with tree }
    if w.net.isPrecedenceRule c.rule then return .ok (← w.enterRecursion node c.start c.precedence)
    else return .ok (← w.enterRule node c.start)
  | .precedence _ level =>
    if level < w.level then
      return .error (.predicate w.state (st.rule.getD 0) w.tokens.position
        s!"precpred(_ctx, {level})")
    else return .ok w
  | .predicate .. | .action .. => return .ok w

/-- The number, from 1, of the edge to take. -/
def chooseEdge (w : Walker) (st : State) : Except Fault (Except Failure Nat) := do
  if st.edges.length > 1 then
    let follow ← w.followStates
    Choice.choose
      { net := w.net, tokens := w.tokens, follow := follow.toArray, precedence := w.level } w.state
  else return .ok 1

/-- Takes one edge, or fails and stays. In a state without edges the walker leaves the rule. -/
def visit (w : Walker) : Except Fault (Except Failure Walker) := do
  let st ← w.net.state w.state
  match ← w.chooseEdge st with
  | .error f => return .error f
  | .ok number =>
    match st.edges[number - 1]? with
    | none =>
      match st.rule with
      | none => return .ok w
      | some rule => return .ok { w with state := ← Fault.ofLookup w.net.ruleStops[rule]? }
    | some e =>
      match ← w.takeEdge st e with
      | .error f => return .error f
      | .ok w => return .ok { w with state := e.target }

/-- The symbols that fit after some rule being parsed. -/
def recoverySet (w : Walker) : Except Fault SymbolSet := do
  let sets ← (← w.followStates).mapM w.net.nextSymbols
  return (sets.foldl (· ∪ ·) ∅).erase Symbol.ruleEnd

def skipToken (w : Walker) : Except Fault Walker := do
  let tree ← match w.context with
    | some node => do
      let (_, tree) ← w.tree.addError node w.tokens.position
      pure tree
    | none => pure w.tree
  return { w with tree, tokens := w.tokens.advance }

def skipTo (recovery : SymbolSet) : Nat → Walker → Except Fault Walker
  | 0, _ => .error .unfinished
  | fuel + 1, w => do
    if w.tokens.ahead = Symbol.eof ∨ w.tokens.ahead ∈ recovery then return w
    else skipTo recovery fuel (← w.skipToken)

/-- Finds a token to go on with. At a token and a state where this was tried before, one is
dropped. -/
def recover (w : Walker) : Except Fault Walker := do
  let index := w.tokens.position
  let w ← if w.lastErrorIndex = some index ∧ w.state ∈ w.errorStates then w.skipToken else pure w
  let w := { w with lastErrorIndex := some index, errorStates := w.errorStates.insert w.state }
  skipTo (← w.recoverySet) (w.tokens.size + 1) w

/-- Records a failure, goes to the end of the rule it happened in and recovers. -/
def fail (w : Walker) (f : Failure) : Except Fault Walker := do
  let rule := (← w.net.state f.state).rule.getD 0
  let stop ← Fault.ofLookup w.net.ruleStops[rule]?
  let tree ← match w.context with
    | some node => w.tree.modifyRule node fun r => { r with failure := some f }
    | none => pure w.tree
  recover { w with tree, state := stop, failures := w.failures ++ [f] }

end Walker

end GrammarWalk
