import GrammarWalk.Network.Basic
import GrammarWalk.Parse.Failure
import GrammarWalk.Visited

/-!
The choice of an alternative at a decision. All alternatives are followed at once over the tokens
ahead, through the rules being parsed, until one is left, or until the ones left can no longer be
told apart.
-/

namespace GrammarWalk.Choice

/-- What a choice depends on besides the decision. -/
structure Setting where
  net : Network
  tokens : Tokens
  /-- Where the rules being parsed go on, outermost first. -/
  follow : Array Nat
  /-- The level of precedence of the current rule. -/
  precedence : Int
deriving Repr, Inhabited

/-- One way on from the decision. -/
structure Trail where
  state : Nat
  /-- The alternative it began with, counted from 1. -/
  alternative : Nat
  /-- At the decision itself, the one raw edge that the trail can take. -/
  only : Option Nat := none
  /-- Where the calls made since go on, last call first. -/
  stack : List Nat := []
  /-- The number of rules being parsed that have not ended since. -/
  outer : Nat
  /-- The trail has left the decision's own invocation of its rule. -/
  leftOrigin : Bool := false
deriving DecidableEq, Repr, Inhabited

/-- The trails after the same tokens, in the order found. -/
structure Front where
  trails : List Trail := []
  /-- Every trail that was looked at, under its number of calls. -/
  seen : Visited Trail := {}
deriving Repr, Inhabited

def Front.add (f : Front) (t : Trail) : Front := { f with trails := f.trails ++ [t] }

/-- Calls go no deeper than this. -/
def maxCalls : Nat := 512

def edgesOf (st : State) (t : Trail) : Except Fault (List Edge) :=
  match t.only with
  | some i => return [← Fault.ofLookup st.edges[i]?]
  | none => return st.followed

/--
The trail after an edge that takes no input; nothing if the edge takes some, the call is too deep or
the level of precedence is too low for the decision's own invocation.
-/
def Trail.along (t : Trail) (precedence : Int) (e : Edge) : Option Trail :=
  let next := { t with state := e.target, only := none }
  match e with
  | .call c =>
    if c.optimizedTail then some { next with leftOrigin := true }
    else if t.stack.length ≥ maxCalls then none
    else some { next with stack := c.follow :: t.stack }
  | .precedence _ level =>
    if t.stack.isEmpty && !t.leftOrigin && level < precedence then none else some next
  | .epsilon .. | .predicate .. | .action .. => some next
  | .atom .. | .range .. | .set .. | .notSet .. | .wildcard .. => none

/-- Adds to a front every trail that `t` turns into without input. -/
def close (s : Setting) : Nat → Trail → Front → Except Fault Front
  | 0, _, _ => .error .unfinished
  | fuel + 1, t, front => do
    if front.seen.contains t.stack.length t then return front
    let front := { front with seen := front.seen.insert t.stack.length t }
    let st ← s.net.state t.state
    if st.isRuleStop then
      match t.stack, t.outer with
      | caller :: stack, _ => close s fuel { t with state := caller, stack } front
      | [], outer + 1 => do
        let caller ← Fault.ofLookup s.follow[outer]?
        close s fuel { t with state := caller, outer, leftOrigin := true } front
      | [], 0 => return front.add t
    else
      let edges ← edgesOf st t
      let front := if edges.all Edge.isSilent then front else front.add t
      edges.foldlM (fun front e =>
        match t.along s.precedence e with
        | some next => close s fuel next front
        | none => return front) front

def closeBound (s : Setting) : Nat :=
  Nat.pow (s.net.states.size + s.net.edgeCount + s.follow.size + 2) (maxCalls + 6)

def Trail.isComplete (st : State) (t : Trail) : Bool :=
  st.isRuleStop && t.stack.isEmpty && t.outer == 0

/-- Sends a trail over a symbol. After the outermost rule only the end of input fits. -/
def send (s : Setting) (symbol : Int) (front : Front) (t : Trail) : Except Fault Front := do
  let st ← s.net.state t.state
  if t.isComplete st then
    if symbol = Symbol.eof ∧ !front.seen.contains t.stack.length t then
      return { front.add t with seen := front.seen.insert t.stack.length t }
    else return front
  else
    (← edgesOf st t).foldlM (fun front e => do
      if e.accepts symbol Symbol.minToken s.net.maxToken then
        close s (closeBound s) { t with state := e.target, only := none } front
      else return front) front

/-- The trails after one more symbol. -/
def step (s : Setting) (trails : List Trail) (symbol : Int) : Except Fault (List Trail) := do
  return (← trails.foldlM (send s symbol) {}).trails

/-- The trails at the start: one for each raw edge of the decision. -/
def start (s : Setting) (decision : Nat) : Except Fault (List Trail) := do
  let st ← s.net.state decision
  let front ← (List.range st.edges.length).foldlM (fun front i =>
    close s (closeBound s)
      { state := decision, alternative := i + 1, only := some i, outer := s.follow.size } front) {}
  return front.trails

/-- What tells trails of different alternatives apart. -/
structure Outlook where
  state : Nat
  stack : List Nat
  outer : Nat
  leftOrigin : Bool
deriving DecidableEq, Repr, Inhabited

def Trail.outlook (t : Trail) : Outlook :=
  { state := t.state, stack := t.stack, outer := t.outer, leftOrigin := t.leftOrigin }

/-- The outlooks of an alternative, under their numbers of calls. -/
def outlooks (trails : List Trail) (alternative : Nat) : Visited Outlook :=
  trails.foldl (fun v t =>
    if t.alternative = alternative ∧ !v.contains t.stack.length t.outlook then
      v.insert t.stack.length t.outlook
    else v) {}

/-- Every trail of alternative `a` has an outlook of alternative `b`. -/
def covers (trails : List Trail) (a b : Nat) : Bool :=
  let seen := outlooks trails b
  trails.all fun t => t.alternative != a || seen.contains t.stack.length t.outlook

def least (trails : List Trail) : Nat := ((trails.map (·.alternative)).min?).getD 1

/-- The alternative that the trails settle on: the only one left, or the least if all look the
same. -/
def settled? (trails : List Trail) : Option Nat :=
  match trails with
  | [] => none
  | t :: _ =>
    let others := ((trails.map (·.alternative)).eraseDups).filter (· ≠ t.alternative)
    if others.all fun a => covers trails a t.alternative && covers trails t.alternative a then
      some (least trails)
    else none

/-- Follows the trails from token `i` on until they settle on an alternative. -/
def chooseFrom (s : Setting) (decision : Nat) :
    Nat → List Trail → Nat → Except Fault (Except Failure Nat)
  | 0, _, _ => .error .unfinished
  | fuel + 1, trails, i => do
    if let some a := settled? trails then return .ok a
    let symbol := (s.tokens.get i).type
    let next ← step s trails symbol
    if next.isEmpty then return .error (.noAlternative decision s.tokens.position i)
    if symbol = Symbol.eof then return .ok (least next)
    chooseFrom s decision fuel next (s.tokens.nextRead (i + 1))

/-- The alternative to take at a decision, counted from 1, or the failure if none fits. -/
def choose (s : Setting) (decision : Nat) : Except Fault (Except Failure Nat) := do
  chooseFrom s decision (s.tokens.size + 1) (← start s decision) s.tokens.position

end GrammarWalk.Choice
