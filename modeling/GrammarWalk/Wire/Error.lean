/-!
Why a word stream cannot be read, and why a network cannot be written as one.
-/

namespace GrammarWalk.Wire

/-- A word with a limited choice of values. -/
inductive Part
  | grammarKind | stateType | codePoint | edgeKind | commandKind
deriving DecidableEq, Repr, Inhabited

def Part.text : Part → String
  | grammarKind => "grammar kind"
  | stateType => "state type"
  | codePoint => "code point"
  | edgeKind => "transition type"
  | commandKind => "lexer action type"

/-- The value as `digits` upper-case hexadecimal digits. -/
def hex (digits value : Nat) : String :=
  String.ofList <| (List.range digits).reverse.map fun i =>
    (Nat.digitChar (value / Nat.pow 16 i % 16)).toUpper

/-- The value of hexadecimal digits of either case; nothing if there is another character. -/
def ofHex? (text : String) : Option Nat :=
  text.toList.foldlM (fun value c =>
    ("0123456789abcdef".toList.idxOf? c.toLower).map (16 * value + ·)) 0

def identifierDigits : Nat := 32

inductive FormatError
  | unsupportedVersion (found : Nat)
  | unknownIdentifier (identifier : Nat)
  | truncated (offset : Nat)
  | invalidValue (what : Part) (value offset : Nat)
  | oddByteLength (length : Nat)
deriving DecidableEq, Repr, Inhabited

def FormatError.message : FormatError → String
  | unsupportedVersion found =>
    s!"could not deserialize ATN with version {found} (expected 3)"
  | unknownIdentifier id =>
    s!"could not deserialize ATN with unknown identifier {hex identifierDigits id}"
  | truncated offset => s!"serialized ATN ends unexpectedly at word {offset}"
  | invalidValue what value offset => s!"invalid {what.text} {value} at word {offset}"
  | oddByteLength length => s!"serialized ATN byte buffer has odd length {length}"

/-- What a written word stands for. -/
inductive Item
  | maxToken | stateCount | ruleIndex | loopback | blockEnd | nonGreedyCount | nonGreedyState
  | precedenceCount | precedenceState | ruleCount | ruleStart | ruleToken | modeCount | modeStart
  | setCount | spanCount | spanBound | edgeCount | edgeSource | edgeTarget | edgeArgument
  | decisionCount | decisionState | commandCount | commandOperand
deriving DecidableEq, Repr, Inhabited

def Item.text : Item → String
  | maxToken => "max token type"
  | stateCount => "state count"
  | ruleIndex => "rule index"
  | loopback => "loopback state"
  | blockEnd => "block end state"
  | nonGreedyCount => "non-greedy count"
  | nonGreedyState => "non-greedy state"
  | precedenceCount => "precedence rule count"
  | precedenceState => "precedence rule state"
  | ruleCount => "rule count"
  | ruleStart => "rule start state"
  | ruleToken => "rule token type"
  | modeCount => "mode count"
  | modeStart => "mode start state"
  | setCount => "set count"
  | spanCount => "interval count"
  | spanBound => "interval bound"
  | edgeCount => "edge count"
  | edgeSource => "edge source"
  | edgeTarget => "edge target"
  | edgeArgument => "edge argument"
  | decisionCount => "decision count"
  | decisionState => "decision state"
  | commandCount => "lexer action count"
  | commandOperand => "lexer action operand"

inductive EncodeError
  | unknownIdentifier (identifier : Nat)
  | valueOutOfRange (what : Item) (value : Int)
  | setNeedsWideTable (lo hi : Int)
  | actionNeedsTable (index : Nat)
deriving DecidableEq, Repr, Inhabited

def EncodeError.message : EncodeError → String
  | unknownIdentifier id => s!"unknown format identifier {hex identifierDigits id}"
  | valueOutOfRange what value => s!"{what.text} {value} does not fit in a serialized word"
  | setNeedsWideTable lo hi =>
    s!"interval {lo}..{hi} exceeds the 16-bit set table of this format"
  | actionNeedsTable index =>
    s!"lexer action {index} cannot be written in a format without the action table"

end GrammarWalk.Wire
