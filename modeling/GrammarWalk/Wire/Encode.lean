import GrammarWalk.Count
import GrammarWalk.Network.Basic
import GrammarWalk.Wire.Error
import GrammarWalk.Wire.Version

/-!
Writing a network as a word stream. Edges out of rule stops, links and decision numbers are left
out, as the reader derives them.
-/

namespace GrammarWalk.Wire

abbrev Written := Except EncodeError (List Word)

/-- A number as one word. The error shows a count that is too great with its highest bit as a
sign. -/
def putInt (what : Item) (value : Int) : Written :=
  if 0 ≤ value ∧ value ≤ 0xFFFF then return [UInt16.ofNat value.toNat]
  else throw (.valueOutOfRange what (Count.signed value))

def putNat (what : Item) (value : Nat) : Written := putInt what value

/-- A number that is meant as it is written, in range or not known to be. -/
def putTag (tag : Nat) : Written := return [UInt16.ofNat tag]

def putBool (b : Bool) : Written := putTag (if b then 1 else 0)

def putAbsent : Written := putTag absent

def putOptional (what : Item) : Option Nat → Written
  | some value => putNat what value
  | none => putAbsent

/-- A number, with `absent` for -1. -/
def putOperand (what : Item) (value : Int) : Written :=
  if value = -1 then putAbsent else putInt what value

def putDouble (what : Item) (value : Int) : Written :=
  if 0 ≤ value then return toWords 2 value.toNat else throw (.valueOutOfRange what value)

def join (parts : List Written) : Written := do return (← parts.mapM id).flatten

def putList {α : Type} (count : Item) (put : α → Written) (items : List α) : Written := do
  join (putNat count items.length :: items.map put)

def putState (st : State) : Written :=
  if st.kind = .invalid then putTag st.kind.type.tag
  else join [putTag st.kind.type.tag, putOptional .ruleIndex st.rule,
    match st.kind with
    | .loopEnd loopback => putNat .loopback (loopback.getD 0)
    | .blockStart _ stop _ => putNat .blockEnd (stop.getD 0)
    | _ => return []]

def isPrecedenceStart (st : State) : Bool :=
  match st.kind with
  | .ruleStart _ isPrecedence _ => isPrecedence
  | _ => false

def putStates (net : Network) : Written :=
  let states := net.states.toList
  let valid := states.filter fun st => st.kind != .invalid
  join [ putList .stateCount putState states, putList .nonGreedyCount (putNat .nonGreedyState)
    ((valid.filter State.isNonGreedy).map State.number), putList .precedenceCount
    (putNat .precedenceState) ((valid.filter isPrecedenceStart).map State.number)]

def putRule (net : Network) (version : Version) (start rule : Nat) : Written :=
  join [putNat .ruleStart start,
    match net.kind with
    | .parser => return []
    | .lexer => putOperand .ruleToken (net.ruleTokens[rule]?.getD 0),
    if net.kind = .lexer ∧ !version.hasCommandTable then putAbsent else return []]

def putRules (net : Network) (version : Version) : Written :=
  putList .ruleCount (fun (start, rule) => putRule net version start rule)
    net.ruleStarts.toList.zipIdx

def writtenEdges (net : Network) : List (Nat × Edge) :=
  (net.states.toList.filter (!·.isRuleStop)).flatMap fun st => st.edges.map fun e => (st.number, e)

def setOf? : Edge → Option SymbolSet
  | .set _ s | .notSet _ s => some s
  | _ => none

def writtenSets (net : Network) : List SymbolSet :=
  ((writtenEdges net).filterMap fun e => setOf? e.2).eraseDups

/-- The set goes into the table of sets with 16-bit bounds. -/
def isNarrow (s : SymbolSet) : Bool := s.max?.all (· ≤ 0xFFFF)

/-- The spans of a set as they are written: the end of input is a flag, and no part of a span. -/
def boundsOf (s : SymbolSet) : List Span :=
  (s.spans.filter fun a => !(a.lo == Symbol.eof && a.hi == Symbol.eof)).map fun a =>
    if a.lo = Symbol.eof then { a with lo := 0 } else a

def putSet (bound : Int → Written) (s : SymbolSet) : Written :=
  let atEnd := s.contains Symbol.eof
  let alone := atEnd && s.spans.head?.any (·.hi == Symbol.eof)
  join ([putNat .spanCount (if alone then s.spans.length - 1 else s.spans.length), putBool atEnd] ++
    (boundsOf s).map fun a => join [bound a.lo, bound a.hi])

/-- The tables of sets: those with 16-bit bounds, then the others, where the format has room for
them. -/
def putSets (version : Version) (sets : List SymbolSet) : Written := do
  let narrow := sets.filter isNarrow
  let wide := sets.filter (!isNarrow ·)
  if version.hasWideSets then
    join [putList .setCount (putSet (putInt .spanBound)) narrow,
      putList .setCount (putSet (putDouble .spanBound)) wide]
  else
    match wide.head?.bind (·.spans.getLast?) with
    | some a => throw (.setNeedsWideTable a.lo a.hi)
    | none => putList .setCount (putSet (putInt .spanBound)) narrow

def setNumber (sets : List SymbolSet) (s : SymbolSet) : Nat :=
  ((sets.filter isNarrow ++ sets.filter (!isNarrow ·)).idxOf? s).getD 0

/-- The command index of an action edge in a format without a command table. -/
def ownIndex (net : Network) (slot : Nat) : Except EncodeError Int :=
  match net.commands[slot]? with
  | some (.custom _ action) => return if action < 0 then (absent : Int) else action
  | _ => throw (.actionNeedsTable slot)

def actionIndex (net : Network) (version : Version) : Option Nat → Except EncodeError Int
  | none => return (absent : Int)
  | some index =>
    if net.kind = .lexer ∧ !version.hasCommandTable then ownIndex net index
      else return (index : Int)

def edgeWords (net : Network) (version : Version) (sets : List SymbolSet) :
    Edge → Except EncodeError (Nat × Int × Int × Int)
  | .epsilon t _ => return (t, 0, 0, 0)
  | .range t lo hi => return if lo = Symbol.eof then (t, 0, hi, 1) else (t, lo, hi, 0)
  | .call c => return (c.follow, c.start, c.rule, c.precedence)
  | .predicate t rule index contextual => return (t, rule, index, if contextual then 1 else 0)
  | .precedence t level => return (t, level, 0, 0)
  | .atom t symbol => return if symbol = Symbol.eof then (t, 0, 0, 1) else (t, symbol, 0, 0)
  | .action t rule index contextual => do
    return (t, rule, ← actionIndex net version index, if contextual then 1 else 0)
  | .set t s | .notSet t s => return (t, setNumber sets s, 0, 0)
  | .wildcard t => return (t, 0, 0, 0)

def putEdge (net : Network) (version : Version) (sets : List SymbolSet) (source : Nat) (e : Edge) :
    Written := do
  let (target, a, b, c) ← edgeWords net version sets e
  join [putNat .edgeSource source, putNat .edgeTarget target, putTag e.kind.tag,
    putInt .edgeArgument a, putInt .edgeArgument b, putInt .edgeArgument c]

def putCommand (c : Command) : Written :=
  join [putTag c.kind.tag, putOperand .commandOperand c.operands.1,
    putOperand .commandOperand c.operands.2]

def putCommands (net : Network) (version : Version) : Written :=
  match net.kind with
  | .parser => return []
  | .lexer =>
    if version.hasCommandTable then putList .commandCount putCommand net.commands.toList
    else return []

def putNetwork (net : Network) (version : Version) : Written :=
  let sets := writtenSets net
  join [
    putTag formatNumber,
    return toWords identifierWords version.identifier,
    putTag net.kind.tag,
    putInt .maxToken net.maxToken,
    putStates net,
    putRules net version,
    putList .modeCount (putNat .modeStart) net.modes.toList,
    putSets version sets,
    putList .edgeCount (fun (source, e) => putEdge net version sets source e) (writtenEdges net),
    putList .decisionCount (putNat .decisionState) net.decisions.toList,
    putCommands net version]

/-- The word stream of a network in the format with the given identifier. -/
def encodeAs (net : Network) (identifier : Nat) : Except EncodeError (List Word) := do
  match Version.ofIdentifier? identifier with
  | none => throw (.unknownIdentifier identifier)
  | some version => return shiftWords (← putNetwork net version)

def encode (net : Network) : Except EncodeError (List Word) :=
  encodeAs net Version.newest.identifier

end GrammarWalk.Wire
