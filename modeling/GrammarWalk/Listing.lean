import GrammarWalk.Grammar.Vocabulary
import GrammarWalk.Load
import GrammarWalk.Text.Blank
import GrammarWalk.Text.Decimal
import GrammarWalk.Text.Lines

/-!
Interpreter listings: texts with the names of a grammar in sections, and its network as a bracketed
list of words. A section is a header line and its entries, one a line, up to a blank line.
-/

namespace GrammarWalk

structure Listing where
  literal : List (Option String) := []
  symbolic : List (Option String) := []
  rules : List String := []
  channels : List String := []
  modes : List String := []
  words : List Wire.Word := []
deriving DecidableEq, Repr, Inhabited

namespace Listing

open Text

inductive Section
  | literal | symbolic | rules | channels | modes | network
deriving DecidableEq, Repr, Inhabited

def Section.header : Section → String
  | literal => "token literal names:"
  | symbolic => "token symbolic names:"
  | rules => "rule names:"
  | channels => "channel names:"
  | modes => "mode names:"
  | network => "atn:"

inductive ParseError
  | missingSection (line : Nat) (expected : Section)
  | invalidWord (line : Nat) (text : String)
  | missingNetwork
deriving DecidableEq, Repr, Inhabited

def ParseError.message : ParseError → String
  | missingSection line expected => s!"line {line}: expected section header '{expected.header}'"
  | invalidWord line text => s!"line {line}: invalid ATN word '{text}'"
  | missingNetwork => "the interpreter data has no ATN section"

/-- The lines not read yet, each with its number from 1. -/
abbrev Lines := List (Nat × List Char)

def numbered (text : String) : Lines := (Text.lines text).zipIdx.map fun (line, i) => (i + 1, line)

def isBlankLine (line : List Char) : Bool := line.all isBlank

def skipBlankLines (lines : Lines) : Lines := lines.dropWhile fun l => isBlankLine l.2

/-- The number of the next line; 0 at the end. -/
def nextNumber (lines : Lines) : Nat := (lines.head?.map (·.1)).getD 0

/-- The next line that is not blank is the header of the section. -/
def isAt (s : Section) (lines : Lines) : Bool :=
  (skipBlankLines lines).head?.any fun l => trim l.2 == s.header.toList

/-- The entries of a section, and the lines from the blank one after them. -/
def entries (s : Section) (lines : Lines) : Except ParseError (List (List Char) × Lines) :=
  let lines := skipBlankLines lines
  if isAt s lines then
    let (body, rest) := lines.tail.span fun l => !isBlankLine l.2
    return (body.map fun l => dropEndWhile (· == '\r') l.2, rest)
  else throw (.missingSection (nextNumber lines) s)

/-- A name; the word `null` stands for none. -/
def optionalName (entry : List Char) : Option String :=
  if entry = "null".toList then none else some (String.ofList entry)

def optionalEntries (s : Section) (lines : Lines) : Except ParseError (List (List Char) × Lines) :=
  if isAt s lines then entries s lines else return ([], lines)

def word (line : Nat) (text : List Char) : Except ParseError Wire.Word :=
  match number? 0xFFFF text with
  | some n => return UInt16.ofNat n
  | none => throw (.invalidWord line (String.ofList text))

/-- The texts between the commas of a bracketed list, without those that are blank. -/
def listed (entries : List (List Char)) : List (List Char) :=
  let joined := trim ([' '].intercalate entries)
  let body := dropEndWhile (· == ']') (joined.dropWhile (· == '['))
  ((splitOn ',' body).map trim).filter (!·.isEmpty)

/-- The words of the last section; the errors name the line below the header. -/
def networkWords (lines : Lines) : Except ParseError (List Wire.Word) := do
  if !isAt .network lines then throw .missingNetwork
  let line := nextNumber (skipBlankLines lines) + 1
  let (body, _) ← entries .network lines
  let words ← (listed body).mapM (word line)
  if words.isEmpty then throw .missingNetwork
  return words

def parse (text : String) : Except ParseError Listing := do
  let (literal, lines) ← entries .literal (numbered text)
  let (symbolic, lines) ← entries .symbolic lines
  let (rules, lines) ← entries .rules lines
  let (channels, lines) ← optionalEntries .channels lines
  let (modes, lines) ← optionalEntries .modes lines
  let words ← networkWords lines
  return {
    literal := literal.map optionalName
    symbolic := symbolic.map optionalName
    rules := rules.map String.ofList
    channels := channels.map String.ofList
    modes := modes.map String.ofList
    words }

def vocabulary (l : Listing) : Vocabulary :=
  { literal := l.literal.toArray, symbolic := l.symbolic.toArray }

def load (l : Listing) (options : LoadOptions) : Except LoadError Network :=
  loadWords l.words options

end Listing

end GrammarWalk
