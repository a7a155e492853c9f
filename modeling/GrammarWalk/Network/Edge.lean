import GrammarWalk.SymbolSet.Basic
import GrammarWalk.SymbolSet.Text

/-!
Edges between states. Five kinds take no input (epsilon, call, predicate, precedence, action); the
others match one symbol. States are named by number.
-/

namespace GrammarWalk

inductive EdgeKind
  | epsilon | range | call | predicate | atom | action | set | notSet | wildcard | precedence
deriving DecidableEq, Repr, Inhabited

namespace EdgeKind

def tag : EdgeKind → Nat
  | epsilon => 1
  | range => 2
  | call => 3
  | predicate => 4
  | atom => 5
  | action => 6
  | set => 7
  | notSet => 8
  | wildcard => 9
  | precedence => 10

def ofTag? : Nat → Option EdgeKind
  | 1 => some epsilon
  | 2 => some range
  | 3 => some call
  | 4 => some predicate
  | 5 => some atom
  | 6 => some action
  | 7 => some set
  | 8 => some notSet
  | 9 => some wildcard
  | 10 => some precedence
  | _ => none

theorem ofTag?_tag (k : EdgeKind) : ofTag? k.tag = some k := by cases k <;> rfl

end EdgeKind

/-- The call of a rule. -/
structure Call where
  /-- The start state of the called rule. -/
  start : Nat
  rule : Nat
  precedence : Int
  /-- Where the caller goes on when the called rule is done. -/
  follow : Nat
  /-- Nothing but epsilon edges lies between `follow` and the end of the calling rule. -/
  tail : Bool := false
  /-- The same over the optimized edge lists. -/
  optimizedTail : Bool := false
deriving DecidableEq, Repr, Inhabited

inductive Edge
  /-- `returning` is the rule whose outermost invocation a return edge leaves, if it leaves one. -/
  | epsilon (target : Nat) (returning : Option Nat)
  | range (target : Nat) (lo hi : Int)
  | call (c : Call)
  | predicate (target rule index : Nat) (contextual : Bool)
  | atom (target : Nat) (symbol : Int)
  | action (target rule : Nat) (index : Option Nat) (contextual : Bool)
  | set (target : Nat) (symbols : SymbolSet)
  | notSet (target : Nat) (symbols : SymbolSet)
  | wildcard (target : Nat)
  | precedence (target : Nat) (level : Int)
deriving DecidableEq, Repr, Inhabited

namespace Edge

/-- An epsilon edge that marks no return. -/
def plain (target : Nat) : Edge := epsilon target none

def kind : Edge → EdgeKind
  | epsilon .. => .epsilon
  | range .. => .range
  | call .. => .call
  | predicate .. => .predicate
  | atom .. => .atom
  | action .. => .action
  | set .. => .set
  | notSet .. => .notSet
  | wildcard .. => .wildcard
  | precedence .. => .precedence

/-- Where the edge leads; a call leads into the called rule. -/
def target : Edge → Nat
  | call c => c.start
  | epsilon t _ | range t _ _ | predicate t _ _ _ | atom t _ | action t _ _ _ | set t _ | notSet t _
  | wildcard t | precedence t _ => t

def retarget (e : Edge) (t : Nat) : Edge :=
  match e with
  | epsilon _ r => epsilon t r
  | range _ lo hi => range t lo hi
  | call c => call { c with start := t }
  | predicate _ r i d => predicate t r i d
  | atom _ s => atom t s
  | action _ r i d => action t r i d
  | set _ s => set t s
  | notSet _ s => notSet t s
  | wildcard _ => wildcard t
  | precedence _ l => precedence t l

@[simp] theorem target_retarget (e : Edge) (t : Nat) : (e.retarget t).target = t := by
  cases e <;> rfl

/-- The edge takes no input. -/
def isSilent : Edge → Bool
  | epsilon .. | call .. | predicate .. | precedence .. | action .. => true
  | range .. | atom .. | set .. | notSet .. | wildcard .. => false

def isEpsilon : Edge → Bool
  | epsilon .. => true
  | _ => false

/-- An epsilon edge that marks no return. -/
def isPlain : Edge → Bool
  | epsilon _ none => true
  | _ => false

def matchesOrCalls : Edge → Bool
  | call .. | atom .. | range .. | set .. | notSet .. | wildcard .. => true
  | epsilon .. | predicate .. | precedence .. | action .. => false

def isLabelled : Edge → Bool
  | atom .. | range .. | set .. => true
  | _ => false

def call? : Edge → Option Call
  | call c => some c
  | _ => none

def mapCall (f : Call → Call) : Edge → Edge
  | call c => call (f c)
  | e => e

/-- The symbols written on the edge; those of a negated set are the ones it refuses. -/
def label? : Edge → Option SymbolSet
  | atom _ s => some (.singleton s)
  | range _ lo hi => some (.ofSpan lo hi)
  | set _ s | notSet _ s => some s
  | _ => none

/-- The symbols the edge accepts over the vocabulary `lo` to `hi`. -/
def accepted? (e : Edge) (lo hi : Int) : Option SymbolSet :=
  match e with
  | notSet _ s => some (s.complement lo hi)
  | wildcard _ => some (.ofSpan lo hi)
  | e => e.label?

/-- The edge accepts `v` over the vocabulary `lo` to `hi`. -/
def accepts (e : Edge) (v lo hi : Int) : Bool :=
  match e with
  | atom _ s => s == v
  | range _ a b => a ≤ v && v ≤ b
  | set _ s => s.contains v
  | notSet _ s => lo ≤ v && v ≤ hi && !s.contains v
  | wildcard _ => lo ≤ v && v ≤ hi
  | _ => false

def text : Edge → String
  | epsilon t _ => s!"ε -> {t}"
  | range t lo hi => s!"{lo}..{hi} -> {t}"
  | call c => s!"call rule {c.rule} (prec {c.precedence}) -> {c.start}, follow {c.follow}"
  | predicate t r i _ => s!"pred {r}:{i} -> {t}"
  | atom t s => s!"{s} -> {t}"
  | action t r (some i) _ => s!"action {r}:{i} -> {t}"
  | action t r none _ => s!"action {r} -> {t}"
  | set t s => s!"{s.text} -> {t}"
  | notSet t s => s!"~{s.text} -> {t}"
  | wildcard t => s!". -> {t}"
  | precedence t l => s!"{l} >= _p -> {t}"

end Edge

end GrammarWalk
