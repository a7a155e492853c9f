import GrammarWalk.Text.Blank
import GrammarWalk.Text.Lines
import GrammarWalk.Text.WordChar

/-!
Where the rules of a grammar stand in its text. A declaration is a line that starts with the rule's
name, perhaps after `fragment`, with a colon after it or at the start of the next line. The rule's
text starts with the comments right above and ends with the first line that closes a rule.
-/

namespace GrammarWalk

/-- A place in a text: a line, counted from 1, and a column, counted from 0. -/
structure Position where
  line : Nat := 0
  column : Nat := 0
deriving DecidableEq, Repr, Inhabited

structure Range where
  start : Position := {}
  stop : Position := {}
deriving DecidableEq, Repr, Inhabited

def Range.hasLine (r : Range) (line : Nat) : Bool := r.start.line ≤ line && line ≤ r.stop.line

structure RuleInfo where
  name : String
  /-- The line with the rule's name; 0 if the rule was not found. -/
  declared : Nat := 0
  /-- The whole rule with the comments above it. -/
  range : Range := {}
deriving DecidableEq, Repr, Inhabited

namespace RuleText

open Text

/-- What follows `start` in a text, if the text begins with it. -/
def after? (start text : List Char) : Option (List Char) :=
  if start.isPrefixOf text then some (text.drop start.length) else none

def startsWith (p : Char → Bool) (text : List Char) : Bool := text.head?.any p

/-- A line without the blanks, and without the word `fragment`, at its start. -/
def declarationPart (line : List Char) : List Char :=
  let line := dropBlanks line
  match after? "fragment".toList line with
  | some rest => if startsWith isBlank rest then dropBlanks rest else line
  | none => line

/-- The line declares the rule, where `next` is the line after it. -/
def declares (name line : List Char) (next : Option (List Char)) : Bool :=
  match after? name (declarationPart line) with
  | none => false
  | some rest =>
    if startsWith (fun c => isWordChar c || c == '_') rest then false
    else
      let rest := dropBlanks rest
      startsWith (· == ':') rest ||
        rest.isEmpty && next.any fun line => startsWith (· == ':') (dropBlanks line)

/-- The number, from 0, of the first line that declares the rule. -/
def declaration? (name : List Char) : List (List Char) → Option Nat
  | [] => none
  | line :: rest =>
    if declares name line rest.head? then some 0 else (declaration? name rest).map (· + 1)

def isComment (line : List Char) : Bool :=
  let line := dropBlanks line
  "//".toList.isPrefixOf line || "/*".toList.isPrefixOf line || startsWith (· == '*') line

/-- A line up to a double slash. -/
def code : List Char → List Char
  | '/' :: '/' :: _ => []
  | c :: line => c :: code line
  | [] => []

def closes (line : List Char) : Bool := (dropEndBlanks (code line)).getLast? == some ';'

def utf8Length (line : List Char) : Nat := (line.map Char.utf8Size).foldr (· + ·) 0

def locate (lines : List (List Char)) (name : String) : RuleInfo :=
  match declaration? name.toList lines with
  | none => { name }
  | some first =>
    let comments := ((lines.take first).reverse.takeWhile isComment).length
    let last := ((lines.drop first).findIdx? closes).elim (lines.length - 1) (first + ·)
    { name, declared := first + 1
      range := {
        start := { line := first - comments + 1, column := 0 }
        stop := { line := last + 1, column := (lines[last]?.map utf8Length).getD 0 } } }

end RuleText

/-- Where rules stand in a grammar's text, in the order of the names. -/
def locateRules (source : String) (names : List String) : List RuleInfo :=
  let lines := Text.lines source
  names.map (RuleText.locate lines)

end GrammarWalk
