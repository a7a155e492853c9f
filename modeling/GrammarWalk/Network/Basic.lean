import GrammarWalk.Fault
import GrammarWalk.Network.Command
import GrammarWalk.Network.State

/-!
A recursive transition network: one graph of states for all rules of a grammar, with the tables that
name its rules, modes and decisions. An access to a state that does not exist is a fault.
-/

namespace GrammarWalk

inductive GrammarKind
  | lexer | parser
deriving DecidableEq, Repr, Inhabited

namespace GrammarKind

def tag : GrammarKind → Nat
  | lexer => 0
  | parser => 1

def ofTag? : Nat → Option GrammarKind
  | 0 => some lexer
  | 1 => some parser
  | _ => none

def text : GrammarKind → String
  | lexer => "lexer"
  | parser => "parser"

end GrammarKind

structure Network where
  kind : GrammarKind
  maxToken : Int
  states : Array State := #[]
  /-- The state of each decision. -/
  decisions : Array Nat := #[]
  /-- The start state of each rule. -/
  ruleStarts : Array Nat := #[]
  /-- The stop state of each rule. -/
  ruleStops : Array Nat := #[]
  /-- The token type of each lexer rule, or the token that stands for each parser rule. -/
  ruleTokens : Array Int := #[]
  /-- The start state of each mode. -/
  modes : Array Nat := #[]
  commands : Array Command := #[]
deriving DecidableEq, Repr, Inhabited

namespace Network

def state (net : Network) (s : Nat) : Except Fault State := Fault.ofLookup net.states[s]?

def ruleCount (net : Network) : Nat := net.ruleStarts.size

/-- Appends a state without edges and gives its number. -/
def addState (net : Network) (kind : StateKind) (rule : Option Nat) : Nat × Network :=
  let number := net.states.size
  (number, { net with states := net.states.push { number, rule, kind } })

/-- Changes a state; a state that does not exist stays away. -/
def modify (net : Network) (s : Nat) (f : State → State) : Network :=
  { net with states := net.states.modify s f }

def addEdge (net : Network) (s : Nat) (e : Edge) : Network := net.modify s (·.addEdge e)

def addRule (net : Network) (start stop : Nat) : Network :=
  { net with ruleStarts := net.ruleStarts.push start, ruleStops := net.ruleStops.push stop }

def setFollowed (net : Network) (s : Nat) (edges : List Edge) : Network :=
  net.modify s fun st => { st with optimized := some edges }

/--
Makes a state the next decision and gives the decision's number. There is none if the state does not
exist, is not of a kind that decides, or has a number already.
-/
def defineDecision (net : Network) (s : Nat) : Option (Nat × Network) := do
  let st ← net.states[s]?
  let d ← st.kind.decision?
  match d.number with
  | some _ => none
  | none =>
    let number := net.decisions.size
    let net := net.modify s fun st =>
      { st with kind := st.kind.mapDecision fun d => { d with number := some number } }
    some (number, { net with decisions := net.decisions.push s })

/-- The start state of a rule, if the rule and its state exist. -/
def ruleStart? (net : Network) (rule : Nat) : Option State := do
  let s ← net.ruleStarts[rule]?
  net.states[s]?

def isPrecedenceRule (net : Network) (rule : Nat) : Bool :=
  (net.ruleStart? rule).any fun st => match st.kind with
    | .ruleStart _ isPrecedence _ => isPrecedence
    | _ => false

def isLeftFactored (net : Network) (rule : Nat) : Bool :=
  (net.ruleStart? rule).any fun st => match st.kind with
    | .ruleStart _ _ leftFactored => leftFactored
    | _ => false

/-- The number of edges, raw and optimized together. -/
def edgeCount (net : Network) : Nat :=
  (net.states.toList.map fun st => st.edges.length + st.followed.length).foldr (· + ·) 0

end Network

end GrammarWalk
