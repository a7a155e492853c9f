/-!
Numbers in decimal digits.
-/

namespace GrammarWalk.Text

/-- The value of a list of digits; nothing if there is another character. -/
def digitsValue? (value : Nat) : List Char → Option Nat
  | [] => some value
  | c :: text => if c.isDigit then digitsValue? (10 * value + (c.toNat - '0'.toNat)) text else none

/-- Reads one digit or more after an optional plus sign, up to `limit`. -/
def number? (limit : Nat) (text : List Char) : Option Nat :=
  let digits := match text with
    | '+' :: digits => digits
    | digits => digits
  if digits.isEmpty then none else (digitsValue? 0 digits).filter (· ≤ limit)

end GrammarWalk.Text
