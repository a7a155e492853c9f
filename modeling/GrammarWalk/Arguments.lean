/-!
The arguments of the command: two files by position and options in any place.
-/

namespace GrammarWalk

structure Arguments where
  /-- The file with the listing of the parser. -/
  parser : String
  /-- The file with the text to parse. -/
  input : String
  /-- The file with the listing of the lexer. -/
  lexer : String
  /-- The file with the text of the grammar, for breakpoints. -/
  grammar : Option String := none
  /-- The rule to start with; the first one by default. -/
  rule : Option String := none
  optimize : Bool := true
  stopOnEntry : Bool := false
deriving DecidableEq, Repr, Inhabited

namespace Arguments

inductive ParseError
  | missing (what : String)
  | missingValue (option : String)
  | unexpected (argument : String)
deriving DecidableEq, Repr, Inhabited

def ParseError.message : ParseError → String
  | missing what => s!"the argument {what} is required"
  | missingValue option => s!"a value is required for {option}"
  | unexpected argument => s!"unexpected argument '{argument}'"

/-- The arguments as far as they are read. -/
structure Partial where
  positions : List String := []
  lexer : Option String := none
  grammar : Option String := none
  rule : Option String := none
  optimize : Bool := true
  stopOnEntry : Bool := false
deriving DecidableEq, Repr, Inhabited

def scan (p : Partial) : List String → Except ParseError Partial
  | [] => return p
  | "--lexer" :: file :: rest => scan { p with lexer := some file } rest
  | "--grammar" :: file :: rest => scan { p with grammar := some file } rest
  | "--rule" :: name :: rest => scan { p with rule := some name } rest
  | "--no-optimize" :: rest => scan { p with optimize := false } rest
  | "--stop-on-entry" :: rest => scan { p with stopOnEntry := true } rest
  | argument :: rest =>
    if ["--lexer", "--grammar", "--rule"].contains argument then throw (.missingValue argument)
    else if argument.startsWith "-" ∨ p.positions.length = 2 then throw (.unexpected argument)
    else scan { p with positions := p.positions ++ [argument] } rest

def parse (args : List String) : Except ParseError Arguments := do
  let p ← scan {} args
  match p.positions, p.lexer with
  | [parser, input], some lexer =>
    return {
      parser, input, lexer, grammar := p.grammar, rule := p.rule, optimize := p.optimize
      stopOnEntry := p.stopOnEntry }
  | [], _ => throw (.missing "PARSER")
  | [_], _ => throw (.missing "INPUT")
  | _, _ => throw (.missing "--lexer LEXER")

end Arguments

end GrammarWalk
