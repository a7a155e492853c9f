import GrammarWalk.Network.Links
import GrammarWalk.Network.ReturnEdges
import GrammarWalk.Wire.Reader

/-!
Reading a network off a word stream. The sections come in this order: format and identifier, kind
and token count, states, flags, rules, modes, sets, edges, decisions, lexer commands. What the
stream leaves out is derived between edges and decisions: return edges and the links of blocks and
loops.
-/

namespace GrammarWalk.Wire

open Reader

/-- Refuses the number of a state that does not exist. -/
def refer (net : Network) (what : Reference) (s : Nat) : Reader Unit :=
  if s < net.states.size then return ()
  else reject (.stateOutOfRange what s net.states.size)

/-- A state as it stands in the stream: its type, its rule, and for some types the number of a
state. -/
structure Row where
  type : StateType
  rule : Option Nat := none
  link : Option Nat := none
deriving DecidableEq, Repr, Inhabited

namespace Row

/-- The type comes with the state that closes the loop. -/
def isLoop (r : Row) : Bool := r.type == .loopEnd

/-- The type comes with the state that ends the block. -/
def isBlock (r : Row) : Bool :=
  r.type == .blockStart || r.type == .plusBlockStart || r.type == .starBlockStart

def kind (r : Row) : StateKind :=
  match r.type with
  | .loopEnd => .loopEnd r.link
  | .blockStart => .blockStart .plain r.link {}
  | .plusBlockStart => .blockStart (.plus none) r.link {}
  | .starBlockStart => .blockStart .star r.link {}
  | type => .ofType type

end Row

/-- An invalid state keeps its number but has neither rule nor link. -/
def readRow : Reader Row := do
  let type ← tagged .stateType StateType.ofTag?
  if type = .invalid then return { type }
  let rule ← optional
  let row : Row := { type, rule }
  if row.isLoop || row.isBlock then return { row with link := some (← word) } else return row

/-- The states; their links are checked when all are there, those of loops before those of
blocks. -/
def readStates (net : Network) : Reader Network := do
  let rows ← counted readRow
  let states :=
    rows.toArray.mapIdx fun number r => { number, rule := r.rule, kind := r.kind : State }
  let net := { net with states }
  rows.forM fun r => do if r.isLoop then (r.link.forM (refer net .loopback))
  rows.forM fun r => do if r.isBlock then (r.link.forM (refer net .blockEnd))
  return net

/-- One entry of the list of decisions that prefer to leave their loop. -/
def readNonGreedy (net : Network) : Reader Network := do
  let s ← word
  refer net .nonGreedy s
  match (← net.state s).kind.decision? with
  | none => reject (.unexpectedKind s .decision)
  | some _ => return net.modify s fun st =>
      { st with kind := st.kind.mapDecision fun d => { d with nonGreedy := true } }

def readPrecedenceRule (net : Network) : Reader Network := do
  let s ← word
  refer net .precedenceRule s
  match (← net.state s).kind with
  | .ruleStart stop _ leftFactored =>
    return net.modify s fun st => { st with kind := .ruleStart stop true leftFactored }
  | _ => reject (.unexpectedKind s .ruleStart)

def readRule (version : Version) (net : Network) : Reader Network := do
  let start ← word
  refer net .ruleStart start
  if !(← net.state start).isRuleStart then reject (.unexpectedKind start .ruleStart)
  let net := { net with ruleStarts := net.ruleStarts.push start }
  match net.kind with
  | .parser => return net
  | .lexer => do
    let type ← word
    -- an older format has a command index here, which the action edges repeat
    if !version.hasCommandTable then let _ ← word
    return { net with
      ruleTokens := net.ruleTokens.push (if type = absent then Symbol.eof else (type : Int)) }

/-- Refuses a rule stop of no rule or of a rule that does not exist. -/
def checkStop (net : Network) (st : State) : Except Defect Unit :=
  if st.isRuleStop then
    match st.rule with
    | none => throw (.unexpectedKind st.number .ownedStop)
    | some rule =>
      if rule < net.ruleCount then return ()
      else throw (.ruleOutOfRange st.number rule net.ruleCount)
  else return ()

def stopOf (net : Network) (rule : Nat) : Except Defect Nat :=
  match net.states.toList.reverse.find? fun st => st.isRuleStop && st.rule == some rule with
  | some st => return st.number
  | none => throw (.missingStop rule)

/-- Finds the stop state of every rule and links the rule's start to it. -/
def linkStops (net : Network) : Except LoadError Network := do
  net.states.toList.forM fun st => checkStop net st
  (List.range net.ruleCount).foldlM (fun net rule => do
    let stop ← stopOf net rule
    let net := { net with ruleStops := net.ruleStops.push stop }
    let start ← Fault.ofLookup net.ruleStarts[rule]?
    let _ ← net.state start
    return net.modify start fun st =>
      match st.kind with
      | .ruleStart _ p l => { st with kind := .ruleStart (some stop) p l }
      | _ => st) net

def readMode (net : Network) : Reader Network := do
  let s ← word
  refer net .modeStart s
  if !(← net.state s).kind.isTokensStart then reject (.unexpectedKind s .tokensStart)
  return { net with modes := net.modes.push s }

def maxBound : Nat := 0x7FFFFFFF

def readWideBound : Reader Int := do
  let offset ← offset
  let value ← double
  if value ≤ maxBound then return value else fail (.invalidValue .codePoint value offset)

/-- A set: the number of its spans, whether the end of input is in it, and the spans. -/
def readSet (bound : Reader Int) : Reader SymbolSet := do
  let spans ← word
  let atEnd ← word
  let start : SymbolSet := if atEnd = 0 then ∅ else .singleton Symbol.eof
  iterate (fun set => do
    let lo ← bound
    let hi ← bound
    return set.insertSpan lo hi) spans start

def readSets (version : Version) : Reader (List SymbolSet) := do
  let narrow ← counted (readSet do return ((← word) : Int))
  if version.hasWideSets then return narrow ++ (← counted (readSet readWideBound))
    else return narrow

def setAt (sets : List SymbolSet) (index : Nat) : Reader SymbolSet :=
  match sets[index]? with
  | some set => return set
  | none => reject (.setOutOfRange index sets.length)

def makeEdge (net : Network) (sets : List SymbolSet) (kind : EdgeKind) (target a b c : Nat) :
    Reader Edge := do
  match kind with
  | .epsilon => return .plain target
  | .range => return .range target (if c = 0 then (a : Int) else Symbol.eof) b
  | .call => do
    refer net .calledRule a
    return .call { start := a, rule := b, precedence := c, follow := target }
  | .predicate => return .predicate target a b (c != 0)
  | .precedence => return .precedence target a
  | .atom => return .atom target (if c = 0 then (a : Int) else Symbol.eof)
  | .action => return .action target a (if b = absent then none else some b) (c != 0)
  | .set => return .set target (← setAt sets a)
  | .notSet => return .notSet target (← setAt sets a)
  | .wildcard => return .wildcard target

def readEdge (sets : List SymbolSet) (net : Network) : Reader Network := do
  let offset ← offset
  let source ← word
  refer net .edgeSource source
  let target ← word
  refer net .edgeTarget target
  let tag ← word
  let a ← word
  let b ← word
  let c ← word
  match EdgeKind.ofTag? tag with
  | none => fail (.invalidValue .edgeKind tag offset)
  | some kind => do
    let e ← makeEdge net sets kind target a b c
    let _ ← net.state source
    return net.addEdge source e

def readDecision (net : Network) : Reader Network := do
  let s ← word
  refer net .decision s
  if (← net.state s).kind.decision?.isNone then reject (.unexpectedKind s .decision)
  match net.defineDecision s with
  | some (_, net) => return net
  | none => reject (.duplicateDecision s)

def readCommand : Reader Command := do
  let kind ← tagged .commandKind CommandKind.ofTag?
  let a ← operand
  let b ← operand
  return .ofOperands kind a b

/-- Gives every action edge a command of its own, numbered in the order of states and edges. -/
def numberActions (first : Nat) : List Edge → List Edge × List Command
  | [] => ([], [])
  | .action target rule index _ :: es =>
    let (es, cs) := numberActions (first + 1) es
    let old : Int := index.elim (-1) fun i => i
    (.action target rule (some first) false :: es, .custom rule old :: cs)
  | e :: es =>
    let (es, cs) := numberActions first es
    (e :: es, cs)

/-- Builds the command table that an older format leaves out. -/
def withCommands (net : Network) : Network :=
  net.states.toList.foldl (fun net st =>
    let (edges, commands) := numberActions net.commands.size st.edges
    { net.modify st.number fun st => { st with edges } with
      commands := net.commands ++ commands.toArray }) net

def readCommands (version : Version) (net : Network) : Reader Network :=
  match net.kind with
  | .parser => return net
  | .lexer => do
    if version.hasCommandTable then return { net with commands := (← counted readCommand).toArray }
    else return withCommands net

def readVersion : Reader Version := do
  let found ← word
  if found ≠ formatNumber then fail (.unsupportedVersion found)
  let id ← identifier
  match Version.ofIdentifier? id with
  | some version => return version
  | none => fail (.unknownIdentifier id)

def readNetwork : Reader Network := do
  let version ← readVersion
  let kind ← tagged .grammarKind GrammarKind.ofTag?
  let maxToken ← word
  let net ← readStates { kind, maxToken }
  let net ← countedSteps readNonGreedy net
  let net ← countedSteps readPrecedenceRule net
  let net ← countedSteps (readRule version) net
  let net ← linkStops net
  let net ← countedSteps readMode net
  let sets ← readSets version
  let net ← countedSteps (readEdge sets) net
  let (_, net) ← net.withReturnEdges
  let net ← net.linkBlocks
  let net ← net.linkLoops
  let net ← countedSteps readDecision net
  let net ← readCommands version net
  net.markPrecedences

/-- The network of a word stream; words after its end are not looked at. -/
def decode (words : List Word) : Except LoadError Network :=
  (readNetwork { offset := 0, rest := unshift words }).map (·.1)

end GrammarWalk.Wire
