import GrammarWalk.Network.Edge
import GrammarWalk.Outline.Basic
import GrammarWalk.Visited

/-!
The leaves of an outline that can come next. The search takes a limited number of steps, so an
outline of any shape is searched in bounded time.
-/

namespace GrammarWalk.Outline

/-- Which leaves are looked for. -/
inductive Filter
  | rule (name : String)
  | tokens (types : SymbolSet)
deriving DecidableEq, Repr, Inhabited

namespace Filter

/-- The tokens that an edge accepts; nothing if it takes no input. -/
def ofEdge? (e : Edge) (maxToken : Int) : Option Filter :=
  (e.accepted? Symbol.minToken maxToken).map tokens

def accepts (f : Filter) (s : Shape) : Bool :=
  match f, s with
  | rule name, .reference other => name == other
  | tokens types, .token type => types.contains type
  | _, _ => false

end Filter

/-- A question of the search. -/
inductive Step
  /-- Which leaves can start the part? -/
  | first (id : Nat)
  /-- Which leaves can follow the part? -/
  | after (id : Nat)
deriving DecidableEq, Repr, Inhabited

def Step.id : Step → Nat
  | first id | after id => id

/-- The starts of a sequence: of its children up to one that cannot be skipped, or what follows
it. -/
def sequenceStarts (o : Outline) (id : Nat) : List Nat → Except Fault (List Step)
  | [] => return [.after id]
  | child :: children => do
    if (← o.part child).shape.isSkippable then return .first child ::
      (← o.sequenceStarts id children)
    else return [.first child]

def starts (o : Outline) (id : Nat) : Except Fault (List Step) := do
  let p ← o.part id
  match p.shape with
  | .rule | .block => return p.children.map .first
  | _ => o.sequenceStarts id p.children

def followers (o : Outline) (id : Nat) : Except Fault (List Step) := do
  let p ← o.part id
  let above : List Step := (p.parent.map Step.after).toList
  match p.shape with
  | .rule => return []
  | .alternative => return above
  | _ =>
    match ← o.nextSibling? id, p.parent with
    | some sibling, _ =>
      return .first sibling :: (if (← o.part sibling).shape.isSkippable then [.after sibling]
        else [])
    | none, some parent =>
      return (if (← o.part parent).shape.isLoop then [.first parent] else []) ++ above
    | none, none => return []

/-- The number of steps a search takes at most. -/
def maxSteps : Nat := 4096

def search (o : Outline) (filter : Filter) :
    Nat → Visited Step → List Nat → List Step → Except Fault (List Nat)
  | _, _, found, [] => return found
  | 0, _, found, _ :: _ => return found
  | steps + 1, seen, found, s :: pending => do
    if seen.contains s.id s then o.search filter steps seen found pending
    else
      let seen := seen.insert s.id s
      match s with
      | .after id => o.search filter steps seen found ((← o.followers id) ++ pending)
      | .first id =>
        let p ← o.part id
        if p.shape.isLeaf then
          let found := if filter.accepts p.shape && !found.contains id then found ++ [id] else found
          o.search filter steps seen found pending
        else o.search filter steps seen found ((← o.starts id) ++ pending)

/-- The leaves that pass the filter and can follow a part of `current`, or start it if it is a
rule. -/
def nextLeaves (o : Outline) (current : List Nat) (filter : Filter) : Except Fault (List Nat) := do
  let pending ← current.mapM fun id => do
    return if (← o.part id).shape = .rule then Step.first id else Step.after id
  o.search filter maxSteps {} [] pending

end GrammarWalk.Outline
