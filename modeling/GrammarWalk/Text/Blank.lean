/-!
Blanks: the characters with the property White_Space, and texts without blanks at their ends.
-/

namespace GrammarWalk.Text

def blankRanges : List (Nat × Nat) :=
  [(0x9, 0xD), (0x20, 0x20), (0x85, 0x85), (0xA0, 0xA0), (0x1680, 0x1680), (0x2000, 0x200A),
   (0x2028, 0x2029), (0x202F, 0x202F), (0x205F, 0x205F), (0x3000, 0x3000)]

def isBlank (c : Char) : Bool := blankRanges.any fun (lo, hi) => lo ≤ c.toNat && c.toNat ≤ hi

def dropBlanks (text : List Char) : List Char := text.dropWhile isBlank

/-- Drops the characters at the end that satisfy `p`. -/
def dropEndWhile (p : Char → Bool) (text : List Char) : List Char :=
  (text.reverse.dropWhile p).reverse

def dropEndBlanks (text : List Char) : List Char := dropEndWhile isBlank text

def trim (text : List Char) : List Char := dropEndBlanks (dropBlanks text)

end GrammarWalk.Text
