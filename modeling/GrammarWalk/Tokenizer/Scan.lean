import GrammarWalk.Misuse
import GrammarWalk.Text.OneLine
import GrammarWalk.Token
import GrammarWalk.Tokenizer.Match

/-!
Cutting a text into tokens. Each match runs the commands of its rule, which can give the token
another type or channel, drop it, join it to the next match or change the mode. A character that
starts no match is reported and passed over.
-/

namespace GrammarWalk

structure Diagnostic where
  line : Nat
  column : Nat
  message : String
deriving DecidableEq, Repr, Inhabited

namespace Tokenizer

/-- A place in a text: the characters before it, its line from 1 and its column from 0. -/
structure Place where
  offset : Nat := 0
  line : Nat := 1
  column : Nat := 0
deriving DecidableEq, Repr, Inhabited

/-- The place after a character. -/
def Place.after (p : Place) (c : Char) : Place :=
  if c = '\n' then { offset := p.offset + 1, line := p.line + 1, column := 0 }
  else { p with offset := p.offset + 1, column := p.column + 1 }

/-- The current mode and those to come back to. -/
structure Modes where
  current : Nat := 0
  saved : List Nat := []
deriving DecidableEq, Repr, Inhabited

/-- Switches to a mode; one that the lexer does not have changes nothing. -/
def Modes.switch (m : Modes) (net : Network) (mode : Int) : Modes :=
  if 0 ≤ mode ∧ mode < net.modes.size then { m with current := mode.toNat } else m

/-- What becomes of a match. -/
structure Outcome where
  type : Int
  channel : Int := Token.defaultChannel
  skip : Bool := false
  more : Bool := false
deriving DecidableEq, Repr, Inhabited

def perform (net : Network) (o : Outcome) (m : Modes) : Command → Outcome × Modes
  | .skip => ({ o with skip := true }, m)
  | .more => ({ o with more := true }, m)
  | .type type => ({ o with type }, m)
  | .channel channel => ({ o with channel }, m)
  | .mode mode => (o, m.switch net mode)
  | .pushMode mode => (o, { m with saved := m.current :: m.saved }.switch net mode)
  | .popMode =>
    match m.saved with
    | [] => (o, m)
    | mode :: saved => (o, { current := mode, saved })
  | .custom _ _ => (o, m)

def invalidType : Int := 0

/-- Runs the commands of a match; numbers of no command are passed over. -/
def performAll (net : Network) (found : Match) (m : Modes) : Outcome × Modes :=
  found.commands.foldl (fun (o, m) i => match net.commands[i]? with
    | some c => perform net o m c
    | none => (o, m)) ({ type := net.ruleTokens[found.rule]?.getD invalidType }, m)

structure Scan where
  modes : Modes := {}
  /-- Where the token in progress starts. -/
  start : Place := {}
  /-- The text of the token in progress. -/
  held : List Char := []
  here : Place := {}
  tokens : List Token := []
  diagnostics : List Diagnostic := []
deriving DecidableEq, Repr, Inhabited

namespace Scan

def token (s : Scan) (o : Outcome) (text : List Char) (stop : Place) : Token :=
  { type := o.type, channel := o.channel, start := s.start.offset, stop := stop.offset
    line := s.start.line, column := s.start.column, index := s.tokens.length
    text := String.ofList text }

/-- The scan after a match of the characters `text`. -/
def afterMatch (net : Network) (s : Scan) (found : Match) (text : List Char) : Scan :=
  let (o, modes) := performAll net found s.modes
  let here := text.foldl Place.after s.here
  let held := s.held ++ text
  if o.more then { s with modes, here, held }
  else
    let tokens := if o.skip then s.tokens else s.tokens ++ [s.token o held here]
    { s with modes, here, tokens, start := here, held := [] }

/-- The scan after a character that starts no match; it is reported with the text held. -/
def afterError (s : Scan) (c : Char) : Scan :=
  let text := Text.oneLine (String.ofList (s.held ++ [c]))
  let here := s.here.after c
  { s with
    here, start := here, held := []
    diagnostics := s.diagnostics ++ [{
      line := s.start.line, column := s.start.column
      message := s!"token recognition error at: '{text}'" }] }

/-- Scans a text of at most `fuel` characters. -/
def run (net : Network) : Nat → Scan → List Char → Except Fault Scan
  | _, s, [] => return s
  | 0, _, _ :: _ => .error .unfinished
  | fuel + 1, s, c :: text => do
    match ← longestMatch net s.modes.current (c :: text) with
    | some found =>
      run net fuel (s.afterMatch net found ((c :: text).take found.length))
        ((c :: text).drop found.length)
    | none => run net fuel (s.afterError c) text

/-- The tokens of a scan with the end of input after them. -/
def finish (s : Scan) : List Token :=
  s.tokens ++ [.endOfInput s.here.offset s.here.line s.here.column s.tokens.length]

end Scan

/-- The tokens of a text, and a diagnostic for each character that no rule accepts. -/
def tokenize (net : Network) (input : String) : Except RunError (List Token × List Diagnostic) := do
  if net.kind ≠ .lexer then throw (.misuse (.wrongKind .lexer net.kind))
  if net.modes.isEmpty then throw (.misuse .noModes)
  let s ← Scan.run net input.length {} input.toList
  return (s.finish, s.diagnostics)

end Tokenizer

end GrammarWalk
