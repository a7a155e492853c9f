/-!
The keys of a workbench, and how a terminal writes them.
-/

namespace GrammarWalk

inductive Key
  | char (c : Char)
  | up | down | left | right | tab
deriving DecidableEq, Repr, Inhabited

/-- The keys that a terminal sends as a text. Arrows are control sequences; line feeds are no
keys. -/
def Key.ofText : List Char → List Key
  | '\x1b' :: '[' :: 'A' :: rest => .up :: ofText rest
  | '\x1b' :: '[' :: 'B' :: rest => .down :: ofText rest
  | '\x1b' :: '[' :: 'C' :: rest => .right :: ofText rest
  | '\x1b' :: '[' :: 'D' :: rest => .left :: ofText rest
  | '\t' :: rest => .tab :: ofText rest
  | '\n' :: rest => ofText rest
  | c :: rest => .char c :: ofText rest
  | [] => []

end GrammarWalk
