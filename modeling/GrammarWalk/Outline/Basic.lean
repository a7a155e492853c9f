import GrammarWalk.Fault

/-!
Outlines of grammars: the rules as their author wrote them, as trees of parts. Parts have numbers in
the order in which they are added. A rule or a block has alternatives, an alternative is a sequence,
and the leaves are tokens and references to rules.
-/

namespace GrammarWalk

namespace Outline

inductive Shape
  | rule | alternative | block | optional | star | plus
  | token (type : Int)
  | reference (rule : String)
deriving DecidableEq, Repr, Inhabited

namespace Shape

def isLeaf : Shape → Bool
  | token _ | reference _ => true
  | _ => false

/-- The part can match nothing by itself. -/
def isSkippable : Shape → Bool
  | optional | star => true
  | _ => false

def isLoop : Shape → Bool
  | star | plus => true
  | _ => false

end Shape

structure Part where
  shape : Shape
  name : String
  parent : Option Nat
  children : List Nat := []
deriving DecidableEq, Repr, Inhabited

end Outline

structure Outline where
  /-- The name of the file with the rules, empty if it is not known. -/
  source : String := ""
  parts : Array Outline.Part := #[]
  /-- The names that rules were added under, the last one first. -/
  rules : List (String × Nat) := []
deriving DecidableEq, Repr, Inhabited

namespace Outline

def size (o : Outline) : Nat := o.parts.size

def part (o : Outline) (id : Nat) : Except Fault Part := Fault.ofLookup o.parts[id]?

/-- Adds a part as the last child of its parent. -/
def add (o : Outline) (shape : Shape) (name : String) (parent : Option Nat) :
    Except Fault (Nat × Outline) := do
  let id := o.size
  let parts := o.parts.push { shape, name, parent }
  match parent with
  | none => return (id, { o with parts })
  | some p =>
    let _ ← Fault.ofLookup parts[p]?
    return (id, { o with parts := parts.modify p fun part =>
      { part with children := part.children ++ [id] } })

def addRule (o : Outline) (name : String) : Nat × Outline :=
  (o.size, { o with
    parts := o.parts.push { shape := .rule, name, parent := none },
      rules := (name, o.size) :: o.rules })

/-- An outline of rules without bodies. -/
def ofRules (source : String) (names : List String) : Outline :=
  names.foldl (fun o name => (o.addRule name).2) { source }

def resolve? (o : Outline) (name : String) : Option Nat := o.rules.lookup name

def source? (o : Outline) : Option String := if o.source.isEmpty then none else some o.source

/-- The child of the same parent after a part. -/
def nextSibling? (o : Outline) (id : Nat) : Except Fault (Option Nat) := do
  match (← o.part id).parent with
  | none => return none
  | some p =>
    let siblings := (← o.part p).children
    return (siblings.idxOf? id).bind fun i => siblings[i + 1]?

def next? (o : Outline) (id : Nat) : Except Fault (Option Nat) := do
  return (← o.nextSibling? id).or (← o.part id).parent

end Outline

end GrammarWalk
