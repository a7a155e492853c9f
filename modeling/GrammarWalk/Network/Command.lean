/-!
What a lexer rule asks for when it has matched.
-/

namespace GrammarWalk

/-- The kinds of command, in the order of their tags in the word stream. -/
inductive CommandKind
  | channel | custom | mode | more | popMode | pushMode | skip | type
deriving DecidableEq, Repr, Inhabited

namespace CommandKind

def tag : CommandKind → Nat
  | channel => 0
  | custom => 1
  | mode => 2
  | more => 3
  | popMode => 4
  | pushMode => 5
  | skip => 6
  | type => 7

def ofTag? : Nat → Option CommandKind
  | 0 => some channel
  | 1 => some custom
  | 2 => some mode
  | 3 => some more
  | 4 => some popMode
  | 5 => some pushMode
  | 6 => some skip
  | 7 => some type
  | _ => none

theorem ofTag?_tag (k : CommandKind) : ofTag? k.tag = some k := by cases k <;> rfl

end CommandKind

inductive Command
  | channel (n : Int)
  /-- Code of the grammar's author: carried along, never run. -/
  | custom (rule action : Int)
  | mode (n : Int)
  | more
  | popMode
  | pushMode (n : Int)
  | skip
  | type (n : Int)
deriving DecidableEq, Repr, Inhabited

namespace Command

/-- A kind uses of the two operands as many as it needs. -/
def ofOperands (kind : CommandKind) (a b : Int) : Command :=
  match kind with
  | .channel => channel a
  | .custom => custom a b
  | .mode => mode a
  | .more => more
  | .popMode => popMode
  | .pushMode => pushMode a
  | .skip => skip
  | .type => type a

def kind : Command → CommandKind
  | channel _ => .channel
  | custom _ _ => .custom
  | mode _ => .mode
  | more => .more
  | popMode => .popMode
  | pushMode _ => .pushMode
  | skip => .skip
  | type _ => .type

/-- Both operands; one that the kind does not use is 0. -/
def operands : Command → Int × Int
  | channel n | mode n | pushMode n | type n => (n, 0)
  | custom rule action => (rule, action)
  | more | popMode | skip => (0, 0)

def text : Command → String
  | channel n => s!"channel({n})"
  | custom rule action => s!"custom({rule}, {action})"
  | mode n => s!"mode({n})"
  | more => "more"
  | popMode => "popMode"
  | pushMode n => s!"pushMode({n})"
  | skip => "skip"
  | type n => s!"type({n})"

end Command

end GrammarWalk
