import GrammarWalk.Network.Basic
import GrammarWalk.Visited

/-!
The ways in which a lexer can be in the middle of a match. A thread is one way: a state, the calls
in progress and the commands met. A front is all threads after the same characters, in order of
preference.
-/

namespace GrammarWalk.Tokenizer

structure Thread where
  state : Nat
  /-- The edge of the mode's start state that the thread came through. -/
  alternative : Nat
  /-- Where the calls in progress go on, last call first. -/
  stack : List Nat := []
  /-- The commands met outside of calls, by their numbers. -/
  commands : List Nat := []
  /-- The thread went through a decision that prefers the shorter match. -/
  passedNonGreedy : Bool := false
deriving DecidableEq, Repr, Inhabited

structure Front where
  threads : List Thread := []
  /-- Every thread that was looked at, under its number of calls; none is looked at twice. -/
  seen : Visited Thread := {}
deriving Repr, Inhabited

def Front.add (f : Front) (t : Thread) : Front := { f with threads := f.threads ++ [t] }

/-- Calls go no deeper than this. -/
def maxCalls : Nat := 256

/-- The thread after an edge that takes no input; nothing if the edge takes some or the call is too
deep. -/
def Thread.along (t : Thread) (passedNonGreedy : Bool) (e : Edge) : Option Thread :=
  let next := { t with state := e.target, passedNonGreedy }
  match e with
  | .call c =>
    if t.stack.length ≥ maxCalls then none else some { next with stack := c.follow :: t.stack }
  | .action _ _ index _ =>
    some (if t.stack.isEmpty then { next with commands := t.commands ++ index.toList } else next)
  | .epsilon .. | .predicate .. | .precedence .. => some next
  | .atom .. | .range .. | .set .. | .notSet .. | .wildcard .. => none

/--
Adds to a front every thread that `t` turns into without input. The answer tells whether a rule has
matched; after that, threads through non-greedy decisions are left out.
-/
def close (net : Network) : Nat → Thread → Bool → Front → Except Fault (Bool × Front)
  | 0, _, _, _ => .error .unfinished
  | fuel + 1, t, accepted, front => do
    if front.seen.contains t.stack.length t then return (false, front)
    let front := { front with seen := front.seen.insert t.stack.length t }
    let st ← net.state t.state
    if st.isRuleStop then
      match t.stack with
      | [] => return (true, front.add t)
      | caller :: stack => close net fuel { t with state := caller, stack } accepted front
    else
      let front := if st.isSilent then front else front.add t
      st.followed.foldlM (fun (accepted, front) e => do
        let ahead ← net.state e.target
        match t.along (t.passedNonGreedy || ahead.isNonGreedy) e with
        | none => return (accepted, front)
        | some next =>
          if accepted && next.passedNonGreedy then return (accepted, front)
          let (matched, front) ← close net fuel next accepted front
          return (accepted || matched, front)) (accepted, front)

/-- More threads than there are, as long as no command repeats without end. -/
def closeBound (net : Network) : Nat :=
  Nat.pow (net.states.size + net.edgeCount + 2) (maxCalls + 2 * net.edgeCount + 4)

/-- Sends a thread along the edges that accept a symbol, up to one that makes a rule match. -/
def sendThrough (net : Network) (t : Thread) (symbol : Int) (accepted : Bool) :
    List Edge → Front → Except Fault (Bool × Front)
  | [], front => return (false, front)
  | e :: es, front => do
    if e.accepts symbol Symbol.minChar Symbol.maxChar then
      let (matched, front) ← close net (closeBound net) { t with state := e.target } accepted front
      if matched then return (true, front) else sendThrough net t symbol accepted es front
    else sendThrough net t symbol accepted es front

/--
The front after one more symbol. When a thread of an alternative has matched, its later threads that
went through a non-greedy decision are dropped.
-/
def step (net : Network) (threads : List Thread) (symbol : Int) : Except Fault Front := do
  let (_, front) ← threads.foldlM (fun (matchedAlternative, front) t => do
    let accepted := matchedAlternative == some t.alternative
    if accepted && t.passedNonGreedy then return (matchedAlternative, front)
    let st ← net.state t.state
    if st.isRuleStop then return (matchedAlternative, front)
    let (matched, front) ← sendThrough net t symbol accepted st.followed front
    return (if matched then some t.alternative else matchedAlternative, front))
    ((none : Option Nat), ({} : Front))
  return front

/-- The front at the start of a match in a mode. -/
def start (net : Network) (mode : Nat) : Except Fault Front := do
  let s ← Fault.ofLookup net.modes[mode]?
  let st ← net.state s
  st.edges.zipIdx.foldlM (fun front (e, alternative) => do
    let t : Thread := { state := e.target, alternative, passedNonGreedy := st.isNonGreedy }
    let (_, front) ← close net (closeBound net) t false front
    return front) {}

def Thread.isAccepting (net : Network) (t : Thread) : Except Fault Bool :=
  if t.stack.isEmpty then return (← net.state t.state).isRuleStop else return false

end GrammarWalk.Tokenizer
