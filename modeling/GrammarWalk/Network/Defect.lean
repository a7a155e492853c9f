import GrammarWalk.Fault

/-!
What can be wrong with the shape of a network, and the wording of each case.
-/

namespace GrammarWalk

/-- A place of the word stream that names a state. -/
inductive Reference
  | loopback | blockEnd | nonGreedy | precedenceRule | ruleStart | modeStart | edgeSource
  | edgeTarget | calledRule | decision
deriving DecidableEq, Repr, Inhabited

def Reference.text : Reference → String
  | loopback => "loop end loopback"
  | blockEnd => "block start end state"
  | nonGreedy => "non-greedy list"
  | precedenceRule => "precedence rule list"
  | ruleStart => "rule start"
  | modeStart => "mode start"
  | edgeSource => "edge source"
  | edgeTarget => "edge target"
  | calledRule => "rule transition target"
  | decision => "decision list"

/-- What a state has to be. -/
inductive Expectation
  | decision | ruleStart | ownedStop | tokensStart | blockEnd
deriving DecidableEq, Repr, Inhabited

def Expectation.text : Expectation → String
  | decision => "decision"
  | ruleStart => "rule start"
  | ownedStop => "rule-owned stop"
  | tokensStart => "tokens start"
  | blockEnd => "block end"

/-- A condition that every state of a sound network meets. -/
inductive Condition
  | severalNeedSilent | plusLoopback | blockEnd | starLoopback | starTwoEdges | greedyExit
  | enteredFirstGreedy | nonGreedyEntry | exitedFirstNonGreedy | starBlockAndExit | loopbackOneEdge
  | loopbackToEntry | loopEndLoopback | ruleStop | blockStart | decisionNumber | onlyDecisionsBranch
deriving DecidableEq, Repr, Inhabited

def Condition.text : Condition → String
  | severalNeedSilent => "state with several transitions must be epsilon-only"
  | plusLoopback => "plus block start has no loopback"
  | blockEnd => "block start has no end state"
  | starLoopback => "star loop entry has no loopback"
  | starTwoEdges => "star loop entry must have two transitions"
  | greedyExit => "greedy star loop entry must exit through a loop end"
  | enteredFirstGreedy => "star loop entered first must be greedy"
  | nonGreedyEntry => "non-greedy star loop entry must enter a star block"
  | exitedFirstNonGreedy => "star loop exited first must be non-greedy"
  | starBlockAndExit => "star loop entry must lead to a star block start and a loop end"
  | loopbackOneEdge => "star loopback must have one transition"
  | loopbackToEntry => "star loopback must lead to a star loop entry"
  | loopEndLoopback => "loop end has no loopback"
  | ruleStop => "rule start has no stop state"
  | blockStart => "block end has no start state"
  | decisionNumber => "decision state with several transitions has no decision number"
  | onlyDecisionsBranch => "non-decision state has several transitions"

inductive Defect
  | stateOutOfRange (what : Reference) (index count : Nat)
  | unexpectedKind (state : Nat) (expected : Expectation)
  | missingStop (rule : Nat)
  | ruleOutOfRange (state rule count : Nat)
  | setOutOfRange (index count : Nat)
  | missingEnd (state : Nat)
  | endClaimed (stop first second : Nat)
  | duplicateDecision (state : Nat)
  | missingLoopback (state : Nat)
  | prefixNotFound (rule : Nat)
  | unsound (state : Nat) (condition : Condition)
deriving DecidableEq, Repr, Inhabited

def Defect.message : Defect → String
  | stateOutOfRange what index count =>
    s!"{what.text} refers to state {index}, but the ATN has {count} states"
  | unexpectedKind state expected => s!"state {state} should be a {expected.text} state"
  | missingStop rule => s!"rule {rule} has no stop state"
  | ruleOutOfRange state rule count =>
    s!"rule stop state {state} refers to rule {rule}, but the ATN has {count} rules"
  | setOutOfRange index count => s!"set index {index} is out of range ({count} sets)"
  | missingEnd state => s!"block start {state} has no end state"
  | endClaimed stop first second => s!"block end {stop} is claimed by both {first} and {second}"
  | duplicateDecision state => s!"decision state {state} is listed more than once"
  | missingLoopback state => s!"star loop entry {state} has no loopback"
  | prefixNotFound rule =>
    s!"couldn't identify final state of the precedence rule prefix section of rule {rule}"
  | unsound state condition => s!"ATN verification failed at state {state}: {condition.text}"

end GrammarWalk
