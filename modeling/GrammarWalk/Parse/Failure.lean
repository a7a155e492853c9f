import GrammarWalk.Grammar.Basic
import GrammarWalk.SymbolSet.Text
import GrammarWalk.Text.OneLine
import GrammarWalk.Token

/-!
Points at which the input does not fit the grammar, with their two wordings: a short one that names
the state, and one for the author of the input.
-/

namespace GrammarWalk

inductive Failure
  /-- No alternative of a decision fits the tokens ahead. -/
  | noAlternative (state start offending : Nat)
  /-- The current token is not one of those that fit. -/
  | mismatch (state offending : Nat) (expected : SymbolSet)
  /-- A level of precedence is too low. -/
  | predicate (state rule offending : Nat) (text : String)
deriving DecidableEq, Repr, Inhabited

namespace Failure

def state : Failure → Nat
  | noAlternative s _ _ | mismatch s _ _ | predicate s _ _ _ => s

/-- The place of the token that does not fit. -/
def offending : Failure → Nat
  | noAlternative _ _ t | mismatch _ t _ | predicate _ _ t _ => t

def message : Failure → String
  | noAlternative s _ _ => s!"no viable alternative at state {s}"
  | mismatch s _ _ => s!"mismatched input at state {s}"
  | predicate s _ _ text => s!"failed predicate {text} at state {s}"

def quote (text : String) : String := Text.oneLine s!"'{text}'"

def tokenText (tokens : Tokens) (i : Nat) : String :=
  let t := tokens.get i
  if t.isEnd then Token.endText else quote t.text

def describe (tokens : Tokens) (grammar : Grammar) : Failure → String
  | noAlternative _ start offending =>
    let text :=
      if (tokens.get start).isEnd then Token.endText else tokens.textBetween start offending
    s!"no viable alternative at input {quote text}"
  | mismatch _ offending expected =>
    let names := expected.named grammar.vocabulary.displayName
    s!"mismatched input {tokenText tokens offending} expecting {names}"
  | predicate _ rule _ text =>
    s!"rule {grammar.ruleName rule} failed predicate: " ++ "\x7b" ++ text ++ "\x7d?"

end Failure

end GrammarWalk
