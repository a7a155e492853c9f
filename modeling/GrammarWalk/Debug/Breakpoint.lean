import GrammarWalk.Grammar.Basic
import GrammarWalk.Network.Basic

/-!
Breakpoints. A breakpoint is asked for on a line and bound, if a rule is declared there, to the
start state of the rule.
-/

namespace GrammarWalk

structure Breakpoint where
  id : Nat
  source : String
  /-- The line shown: the first of the rule's text once the breakpoint is bound. -/
  line : Nat
  requestedLine : Nat
  validated : Bool := false
  /-- The start state of the rule it is bound to. -/
  state : Option Nat := none
deriving DecidableEq, Repr, Inhabited

structure Breakpoints where
  entries : List Breakpoint := []
  /-- The states to which some breakpoint is bound. -/
  states : List Nat := []
  /-- The number of breakpoints ever asked for, which is the last id. -/
  issued : Nat := 0
deriving DecidableEq, Repr, Inhabited

namespace Breakpoints

/-- Adds a breakpoint that is not bound. -/
def add (bs : Breakpoints) (source : String) (line : Nat) : Breakpoint × Breakpoints :=
  let b : Breakpoint := { id := bs.issued + 1, source, line, requestedLine := line }
  (b, { bs with entries := bs.entries ++ [b], issued := bs.issued + 1 })

/-- Removes all; their ids are not used again. -/
def clear (bs : Breakpoints) : Breakpoints := { bs with entries := [], states := [] }

def get? (bs : Breakpoints) (id : Nat) : Option Breakpoint := bs.entries.find? (·.id == id)

/-- The breakpoint bound to the rule declared on its line, if it is not bound yet and there is
one. -/
def bind? (net : Network) (grammar : Grammar) (b : Breakpoint) : Option Breakpoint := do
  if b.validated || b.source != grammar.source then none
  let rule ← grammar.declaredAt? b.requestedLine
  let state ← net.ruleStarts[rule]?
  let info ← grammar.rules[rule]?
  return { b with validated := true, state := some state, line := info.range.start.line }

/-- Tries to bind a breakpoint, and gives it if that was done. -/
def validate (bs : Breakpoints) (net : Network) (grammar : Grammar) (id : Nat) :
    Option Breakpoint × Breakpoints :=
  match (bs.get? id).bind (bind? net grammar) with
  | none => (none, bs)
  | some b =>
    (some b, { bs with
      entries := bs.entries.map fun old => if old.id = id then b else old
      states := bs.states.insert (b.state.getD 0) })

/-- Tries to bind every breakpoint, and gives those for which that was done. -/
def validateAll (bs : Breakpoints) (net : Network) (grammar : Grammar) :
    List Breakpoint × Breakpoints :=
  (bs.entries.map (·.id)).foldl (fun (bound, bs) id =>
    let (b, bs) := bs.validate net grammar id
    (bound ++ b.toList, bs)) ([], bs)

def reset (bs : Breakpoints) : Breakpoints :=
  { bs with
    entries := bs.entries.map fun b =>
      { b with validated := false, state := none, line := b.requestedLine }
    states := [] }

/-- A breakpoint is bound to the state. -/
def isHit (bs : Breakpoints) (s : Nat) : Bool := bs.states.contains s

def size (bs : Breakpoints) : Nat := bs.entries.length

end Breakpoints

end GrammarWalk
