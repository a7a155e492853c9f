import GrammarWalk.Grammar.RuleText
import GrammarWalk.Grammar.Vocabulary

/-!
What is known of a grammar besides its network: the names of rules and tokens, and the text.
-/

namespace GrammarWalk

structure Grammar where
  /-- The name of the file with the rules. -/
  source : String := ""
  rules : Array RuleInfo := #[]
  vocabulary : Vocabulary := {}
deriving DecidableEq, Repr, Inhabited

namespace Grammar

def ofNames (names : List String) (vocabulary : Vocabulary) : Grammar :=
  { rules := (names.map fun name => { name }).toArray, vocabulary }

def ofText (source text : String) (names : List String) (vocabulary : Vocabulary) : Grammar :=
  { source, rules := (locateRules text names).toArray, vocabulary }

def ruleIndex? (g : Grammar) (name : String) : Option Nat :=
  (g.rules.toList.zipIdx.reverse.find? (·.1.name == name)).map (·.2)

def ruleName (g : Grammar) (rule : Nat) : String := (g.rules[rule]?.map (·.name)).getD "<invalid>"

def ruleNames (g : Grammar) : List String := g.rules.toList.map (·.name)

def declaredAt? (g : Grammar) (line : Nat) : Option Nat :=
  if line = 0 then none else g.rules.toList.findIdx? (·.declared == line)

def containing? (g : Grammar) (line : Nat) : Option Nat :=
  g.rules.toList.findIdx? fun r => r.declared > 0 && r.range.hasLine line

end Grammar

end GrammarWalk
