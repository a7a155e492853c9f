import GrammarWalk.Tokenizer.Thread

/-!
The longest match of a lexer's rules at the start of a text; of equally long ones, that of the rule
listed first.
-/

namespace GrammarWalk.Tokenizer

structure Match where
  /-- The number of characters. -/
  length : Nat
  rule : Nat
  commands : List Nat
deriving DecidableEq, Repr, Inhabited

/-- The match that a front has come to after `length` characters. -/
def matchOf (net : Network) (length : Nat) (front : Front) : Except Fault (Option Match) := do
  match ← front.threads.findM? (Thread.isAccepting net) with
  | none => return none
  | some t =>
    let st ← net.state t.state
    return some { length, rule := st.rule.getD 0, commands := t.commands }

def readOn (net : Network) :
    List Thread → Nat → Option Match → List Char → Except Fault (Option Match)
  | _, _, best, [] => return best
  | threads, length, best, c :: text => do
    if threads.isEmpty then return best
    let front ← step net threads c.toNat
    let found ← matchOf net (length + 1) front
    readOn net front.threads (length + 1) (found.or best) text

def longestMatch (net : Network) (mode : Nat) (text : List Char) : Except Fault (Option Match) := do
  readOn net (← start net mode).threads 0 none text

end GrammarWalk.Tokenizer
