import GrammarWalk.Fault
import GrammarWalk.Parse.Failure

/-!
Parse trees. Nodes have numbers in the order in which they are made, and know their parents; a rule
node has a list of children, which a new rule node need not be in yet.
-/

namespace GrammarWalk

structure RuleNode where
  rule : Nat
  parent : Option Nat := none
  /-- The state that called the rule; nothing at the root. -/
  invoking : Option Nat := none
  children : List Nat := []
  /-- The current token when the rule was entered. -/
  start : Nat
  /-- The last token of the rule, once the rule is done. -/
  stop : Option Nat := none
  failure : Option Failure := none
deriving DecidableEq, Repr, Inhabited

inductive Node
  | rule (r : RuleNode)
  | leaf (parent token : Nat)
  /-- A token that was passed over in recovery. -/
  | error (parent token : Nat)
deriving DecidableEq, Repr, Inhabited

def Node.parent? : Node → Option Nat
  | rule r => r.parent
  | leaf p _ | error p _ => some p

structure Tree where
  nodes : Array Node := #[]
  /-- The rule node last made without a parent. -/
  root : Option Nat := none
deriving DecidableEq, Repr, Inhabited

namespace Tree

def size (t : Tree) : Nat := t.nodes.size

def node (t : Tree) (id : Nat) : Except Fault Node := Fault.ofLookup t.nodes[id]?

/-- The node if it is a rule node. -/
def ruleNode? (t : Tree) (id : Nat) : Except Fault (Option RuleNode) := do
  match ← t.node id with
  | .rule r => return some r
  | _ => return none

/-- Changes a node if it is a rule node. -/
def modifyRule (t : Tree) (id : Nat) (f : RuleNode → RuleNode) : Except Fault Tree := do
  let _ ← t.node id
  return { t with nodes := t.nodes.modify id fun
    | .rule r => .rule (f r)
    | n => n }

def children (t : Tree) (id : Nat) : Except Fault (List Nat) := do
  return ((← t.ruleNode? id).map (·.children)).getD []

/-- Adds a rule node, which its parent does not list yet; a node without a parent is the root. -/
def addRule (t : Tree) (rule : Nat) (parent invoking : Option Nat) (start : Nat) : Nat × Tree :=
  let id := t.size
  (id, { nodes := t.nodes.push (.rule { rule, parent, invoking, start })
         root := if parent.isNone then some id else t.root })

def attach (t : Tree) (parent child : Nat) : Except Fault Tree :=
  t.modifyRule parent fun r => { r with children := r.children ++ [child] }

def addToken (t : Tree) (parent : Nat) (n : Node) : Except Fault (Nat × Tree) := do
  let id := t.size
  let t ← attach { t with nodes := t.nodes.push n } parent id
  return (id, t)

def addLeaf (t : Tree) (parent token : Nat) : Except Fault (Nat × Tree) :=
  t.addToken parent (.leaf parent token)

def addError (t : Tree) (parent token : Nat) : Except Fault (Nat × Tree) :=
  t.addToken parent (.error parent token)

/-- Moves a node from its parent's children to the end of another's. -/
def reparent (t : Tree) (child parent : Nat) : Except Fault Tree := do
  let t := if t.root = some child then { t with root := some parent } else t
  let t ← match (← t.node child).parent? with
    | some old => t.modifyRule old fun r => { r with children := r.children.filter (· ≠ child) }
    | none => pure t
  let t ← t.modifyRule child fun r => { r with parent := some parent }
  t.attach parent child

/-- A node as text: a token by its text, a rule by its name, in parentheses with its children. -/
def nodeText (t : Tree) (tokens : Tokens) (grammar : Grammar) : Nat → Nat → Except Fault String
  | 0, _ => .error .unfinished
  | depth + 1, id => do
    match ← t.node id with
    | .leaf _ token | .error _ token => return (tokens.get token).text
    | .rule r =>
      let name := grammar.ruleName r.rule
      match r.children with
      | [] => return name
      | children =>
        let texts := " ".intercalate (← children.mapM (nodeText t tokens grammar depth))
        return s!"({name} {texts})"

/-- The tree as text; nothing for a tree without a root. A tree is no deeper than it has nodes. -/
def text (t : Tree) (tokens : Tokens) (grammar : Grammar) : Except Fault String :=
  match t.root with
  | some root => t.nodeText tokens grammar (t.size + 1) root
  | none => return ""

end Tree

end GrammarWalk
