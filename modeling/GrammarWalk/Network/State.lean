import GrammarWalk.Network.Edge

/-!
States of a network. A state has its raw edges, which never change once a network is loaded, and
perhaps a second, optimized list that a search may follow instead.
-/

namespace GrammarWalk

/-- The types of state, in the order of their tags in the word stream. -/
inductive StateType
  | invalid | basic | ruleStart | blockStart | plusBlockStart | starBlockStart | tokensStart
  | ruleStop | blockEnd | starLoopBack | starLoopEntry | plusLoopBack | loopEnd
deriving DecidableEq, Repr, Inhabited

namespace StateType

def tag : StateType → Nat
  | invalid => 0
  | basic => 1
  | ruleStart => 2
  | blockStart => 3
  | plusBlockStart => 4
  | starBlockStart => 5
  | tokensStart => 6
  | ruleStop => 7
  | blockEnd => 8
  | starLoopBack => 9
  | starLoopEntry => 10
  | plusLoopBack => 11
  | loopEnd => 12

def ofTag? : Nat → Option StateType
  | 0 => some invalid
  | 1 => some basic
  | 2 => some ruleStart
  | 3 => some blockStart
  | 4 => some plusBlockStart
  | 5 => some starBlockStart
  | 6 => some tokensStart
  | 7 => some ruleStop
  | 8 => some blockEnd
  | 9 => some starLoopBack
  | 10 => some starLoopEntry
  | 11 => some plusLoopBack
  | 12 => some loopEnd
  | _ => none

theorem ofTag?_tag (t : StateType) : ofTag? t.tag = some t := by cases t <;> rfl

end StateType

/-- A choice point: its number, once it has one, and whether it prefers to leave a loop. -/
structure Decision where
  number : Option Nat := none
  nonGreedy : Bool := false
deriving DecidableEq, Repr, Inhabited

inductive BlockFlavor
  | plain
  /-- The block of a `+` loop, with the state that closes the loop. -/
  | plus (loopback : Option Nat)
  | star
deriving DecidableEq, Repr, Inhabited

/-- What a state is, with its links to other states. A link is unset until a network is complete. -/
inductive StateKind
  | invalid
  | basic
  | ruleStart (stop : Option Nat) (isPrecedence leftFactored : Bool)
  | ruleStop
  | blockStart (flavor : BlockFlavor) (stop : Option Nat) (decision : Decision)
  | blockEnd (start : Option Nat)
  | loopEnd (loopback : Option Nat)
  | plusLoopBack (decision : Decision)
  | starLoopBack
  | starLoopEntry (decision : Decision) (loopback : Option Nat) (isPrecedence : Bool)
  | tokensStart (decision : Decision)
deriving DecidableEq, Repr, Inhabited

namespace StateKind

/-- The kind of a type with every link unset. -/
def ofType : StateType → StateKind
  | .invalid => invalid
  | .basic => basic
  | .ruleStart => ruleStart none false false
  | .blockStart => blockStart .plain none {}
  | .plusBlockStart => blockStart (.plus none) none {}
  | .starBlockStart => blockStart .star none {}
  | .tokensStart => tokensStart {}
  | .ruleStop => ruleStop
  | .blockEnd => blockEnd none
  | .starLoopBack => starLoopBack
  | .starLoopEntry => starLoopEntry {} none false
  | .plusLoopBack => plusLoopBack {}
  | .loopEnd => loopEnd none

def type : StateKind → StateType
  | invalid => .invalid
  | basic => .basic
  | ruleStart .. => .ruleStart
  | ruleStop => .ruleStop
  | blockStart .plain .. => .blockStart
  | blockStart (.plus _) .. => .plusBlockStart
  | blockStart .star .. => .starBlockStart
  | blockEnd _ => .blockEnd
  | loopEnd _ => .loopEnd
  | plusLoopBack _ => .plusLoopBack
  | starLoopBack => .starLoopBack
  | starLoopEntry .. => .starLoopEntry
  | tokensStart _ => .tokensStart

/-- The choice a state makes, if its kind makes one. -/
def decision? : StateKind → Option Decision
  | blockStart _ _ d | plusLoopBack d | starLoopEntry d _ _ | tokensStart d => some d
  | _ => none

def mapDecision (f : Decision → Decision) : StateKind → StateKind
  | blockStart flavor stop d => blockStart flavor stop (f d)
  | plusLoopBack d => plusLoopBack (f d)
  | starLoopEntry d loopback p => starLoopEntry (f d) loopback p
  | tokensStart d => tokensStart (f d)
  | k => k

def isRuleStart : StateKind → Bool
  | ruleStart .. => true
  | _ => false

def isPlusBlockStart : StateKind → Bool
  | blockStart (.plus _) .. => true
  | _ => false

def isStarBlockStart : StateKind → Bool
  | blockStart .star .. => true
  | _ => false

def isStarLoopEntry : StateKind → Bool
  | starLoopEntry .. => true
  | _ => false

def isLoopEnd : StateKind → Bool
  | loopEnd _ => true
  | _ => false

def isBlockEnd : StateKind → Bool
  | blockEnd _ => true
  | _ => false

def isTokensStart : StateKind → Bool
  | tokensStart _ => true
  | _ => false

end StateKind

structure State where
  /-- The state's place in its network. -/
  number : Nat
  /-- The rule the state belongs to. -/
  rule : Option Nat
  kind : StateKind
  edges : List Edge := []
  optimized : Option (List Edge) := none
deriving DecidableEq, Repr, Inhabited

namespace State

def isRuleStop (s : State) : Bool := s.kind == .ruleStop

def isRuleStart (s : State) : Bool := s.kind.isRuleStart

def isSilent (s : State) : Bool := !s.edges.isEmpty && s.edges.all Edge.isSilent

def addEdge (s : State) (e : Edge) : State := { s with edges := s.edges ++ [e] }

/-- The edges a search follows: the optimized ones where there are any. -/
def followed (s : State) : List Edge := s.optimized.getD s.edges

/-- Gives the state an optimized list, a copy of the raw one, if it has none. -/
def ensureOptimized (s : State) : State := { s with optimized := some s.followed }

def retarget (s : State) (i target : Nat) : State :=
  { s with edges := s.edges.modify i (·.retarget target) }

def retargetOptimized (s : State) (i target : Nat) : State :=
  { s with optimized := s.optimized.map (·.modify i (·.retarget target)) }

def decision? (s : State) : Option Nat := s.kind.decision?.bind (·.number)

def isNonGreedy (s : State) : Bool := s.kind.decision?.any (·.nonGreedy)

end State

end GrammarWalk
