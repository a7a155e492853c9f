import GrammarWalk.Count
import GrammarWalk.SymbolSet.Basic

/-!
Tokens, and a list of tokens with a cursor that stops on the default channel only.
-/

namespace GrammarWalk

structure Token where
  type : Int
  channel : Int
  /-- The number of the first character. -/
  start : Nat
  /-- The number of the character after the last. -/
  stop : Nat
  line : Nat
  column : Nat
  /-- The place in the list of tokens. -/
  index : Nat
  text : String
deriving DecidableEq, Repr, Inhabited

namespace Token

def defaultChannel : Int := 0

def isEnd (t : Token) : Bool := t.type == Symbol.eof

def isRead (t : Token) : Bool := t.channel == defaultChannel

def endText : String := "<EOF>"

def endOfInput (offset line column index : Nat) : Token :=
  { type := Symbol.eof, channel := defaultChannel, start := offset, stop := offset, line, column,
    index, text := endText }

end Token

/-- A list of tokens, of which the last is an end of input, and a cursor. -/
structure Tokens where
  /-- All tokens but the last. -/
  body : Array Token
  last : Token
  position : Nat
deriving DecidableEq, Repr, Inhabited

namespace Tokens

def lastIndex (ts : Tokens) : Nat := ts.body.size

def toList (ts : Tokens) : List Token := ts.body.toList ++ [ts.last]

def size (ts : Tokens) : Nat := ts.body.size + 1

/-- The token at a place; past the end it is the last one. -/
def get (ts : Tokens) (i : Nat) : Token := ts.body[i]?.getD ts.last

/-- The first place from `i` on with a token on the default channel, else the last place. -/
def nextRead (ts : Tokens) (i : Nat) : Nat :=
  ((ts.body.toList.drop i).findIdx? Token.isRead).elim ts.lastIndex (i + ·)

/-- Puts the cursor before a list of tokens; the end of input is added if the list has none last. -/
def ofList (tokens : List Token) : Tokens :=
  let (body, last) : List Token × Token := match tokens.getLast? with
    | none => ([], .endOfInput 0 1 0 0)
    | some t =>
      if t.isEnd then (tokens.dropLast, t)
      else (tokens, .endOfInput t.stop t.line (Count.add t.column t.text.length) tokens.length)
  let ts : Tokens := { body := body.toArray, last, position := 0 }
  { ts with position := ts.nextRead 0 }

def current (ts : Tokens) : Token := ts.get ts.position

/-- The type of the current token. -/
def ahead (ts : Tokens) : Int := ts.current.type

/-- Goes to the next token on the default channel; at the end of input the cursor stays. -/
def advance (ts : Tokens) : Tokens :=
  if ts.current.isEnd then ts else { ts with position := ts.nextRead (ts.position + 1) }

/-- The place of the last token on the default channel before the cursor. -/
def previous? (ts : Tokens) : Option Nat :=
  (List.range ts.position).reverse.find? fun i => (ts.get i).isRead

/-- The texts of the tokens from `first` to `final`, both included, but for ends of input. -/
def textBetween (ts : Tokens) (first final : Nat) : String :=
  let first := min first ts.lastIndex
  let final := min final ts.lastIndex
  String.join (((ts.toList.take (final + 1)).drop first).filterMap fun t =>
    if t.isEnd then none else some t.text)

end Tokens

end GrammarWalk
