import GrammarWalk.SymbolSet.Basic

/-!
The two written forms of a symbol set: spans of numbers, and a list of names for messages.
-/

namespace GrammarWalk.SymbolSet

def braced (items : List String) : String := "\x7b" ++ ", ".intercalate items ++ "\x7d"

/-- Each span as `lo..hi`, or as one number when it holds one symbol. -/
def text (s : SymbolSet) : String :=
  braced <| s.spans.map fun a =>
    if a.lo = a.hi then toString a.lo else toString a.lo ++ ".." ++ toString a.hi

/-- At most this many members are named one by one; a larger set is named by its spans. -/
def namedMembers : Nat := 32

/-- The set with its members named; a single name stands without braces. -/
def named (s : SymbolSet) (name : Int → String) : String :=
  let items :=
    if s.size ≤ namedMembers then s.toList.map name
    else s.spans.map fun a => name a.lo ++ ".." ++ name a.hi
  match items with
  | [item] => item
  | items => braced items

end GrammarWalk.SymbolSet
