/-!
Counts of 64 bits. A count past the greatest one goes on from 0, and a report may take the upper
half of the counts for negative numbers.
-/

namespace GrammarWalk.Count

def range : Nat := 0x10000000000000000

def last : Nat := range - 1

/-- The count that comes `b` after `a`. -/
def add (a b : Nat) : Nat := (a + b) % range

/-- The number that a count stands for when its highest bit is a sign. -/
def signed (n : Int) : Int := n.bmod range

end GrammarWalk.Count
