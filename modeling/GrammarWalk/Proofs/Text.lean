import GrammarWalk.Text.Blank
import GrammarWalk.Text.Decimal
import GrammarWalk.Text.Lines
import Mathlib.Data.List.Induction

/-! Texts that are put together and read again: lines with their ends, parts between commas, numbers
in decimal digits, and texts with something at their ends that is dropped. -/

namespace GrammarWalk.Text

variable {c : Char} {line rest a b : List Char} {lines : List (List Char)} {p : Char → Bool}

section lines

/-- How the lines of a text end. -/
inductive LineEnd
  | feed | returnFeed
deriving DecidableEq, Repr, Inhabited

def LineEnd.text : LineEnd → List Char
  | feed => ['\n']
  | returnFeed => ['\r', '\n']

/-- The text stands on one line: it has no line feed, and no carriage return at its end. -/
structure IsLine (line : List Char) : Prop where
  feed : '\n' ∉ line
  last : line.getLast? ≠ some '\r'

instance (line : List Char) : Decidable (IsLine line) :=
  decidable_of_iff ('\n' ∉ line ∧ line.getLast? ≠ some '\r')
    ⟨fun ⟨h, h'⟩ => ⟨h, h'⟩, fun ⟨h, h'⟩ => ⟨h, h'⟩⟩

theorem IsLine.append (ha : IsLine a) (hb : IsLine b) : IsLine (a ++ b) where
  feed h := (List.mem_append.1 h).elim ha.feed hb.feed
  last := by
    rw [List.getLast?_append]
    have hb := hb.last
    cases hlast : b.getLast? with
    | none => exact ha.last
    | some c => rwa [hlast] at hb

theorem isLine_of_forall (h : ∀ c ∈ line, c ≠ '\n' ∧ c ≠ '\r') : IsLine line where
  feed hc := (h _ hc).1 rfl
  last hc := (h _ (List.mem_of_getLast? hc)).2 rfl

theorem IsLine.dropReturn (h : IsLine line) : dropReturn line = line := by
  unfold Text.dropReturn
  split
  · exact absurd ‹_› h.last
  · rfl

theorem linesFrom_of_notMem (h : '\n' ∉ a) : linesFrom line a =
    if line.reverse ++ a = [] then [] else [line.reverse ++ a] := by
  induction a generalizing line with
  | nil => cases line <;> simp [linesFrom]
  | cons c a ih =>
    have hc : c ≠ '\n' := fun hc => h (hc ▸ List.mem_cons_self)
    rw [linesFrom, ih (mt (List.mem_cons_of_mem c) h)]
    · simp
    · exact hc

theorem linesFrom_append_feed (h : '\n' ∉ a) : linesFrom line (a ++ '\n' :: rest) =
    dropReturn (line.reverse ++ a) :: linesFrom [] rest := by
  induction a generalizing line with
  | nil => simp [linesFrom]
  | cons c a ih =>
    have hc : c ≠ '\n' := fun hc => h (hc ▸ List.mem_cons_self)
    rw [List.cons_append, linesFrom, ih (mt (List.mem_cons_of_mem c) h)]
    · simp
    · exact hc

theorem linesFrom_append_end (h : IsLine a) (e : LineEnd) :
    linesFrom [] (a ++ (e.text ++ rest)) = a :: linesFrom [] rest := by
  cases e with
  | feed =>
    have hread : linesFrom [] (a ++ '\n' :: rest) = dropReturn a :: linesFrom [] rest :=
      linesFrom_append_feed h.feed
    rwa [h.dropReturn] at hread
  | returnFeed =>
    have hfeed : '\n' ∉ a ++ ['\r'] := by simp [h.feed]
    have hdrop : dropReturn (a ++ ['\r']) = a := by simp [dropReturn]
    have hread : linesFrom [] ((a ++ ['\r']) ++ '\n' :: rest) = dropReturn (a ++ ['\r']) ::
        linesFrom [] rest :=
      linesFrom_append_feed hfeed
    rwa [hdrop, List.append_assoc] at hread

/-- The lines of a text are those that it was put together from; but one without characters is none
at its end. -/
theorem linesFrom_intercalate (e : LineEnd) (h : ∀ l ∈ lines, IsLine l) :
    linesFrom [] (e.text.intercalate lines) =
    if lines.getLast? = some [] then lines.dropLast else lines := by
  induction lines with
  | nil => rfl
  | cons l lines ih =>
    have hl := h l List.mem_cons_self
    cases lines with
    | nil =>
      rw [List.intercalate_singleton, linesFrom_of_notMem hl.feed]
      cases l <;> rfl
    | cons m ms =>
      rw [List.intercalate_cons_cons, List.append_assoc, linesFrom_append_end hl, ih fun l hmem =>
        h l (List.mem_cons_of_mem _ hmem), List.getLast?_cons_cons, List.dropLast_cons_cons]
      split <;> rfl

end lines

section ends

theorem dropEndWhile_concat_of_neg (h : p c = false) : dropEndWhile p (a ++ [c]) = a ++ [c] := by
  simp [dropEndWhile, h]

theorem dropEndWhile_concat_of_pos (h : p c = true) :
    dropEndWhile p (a ++ [c]) = dropEndWhile p a := by
  simp [dropEndWhile, h]

theorem dropEndWhile_eq_self (h : ∀ c ∈ a.getLast?, p c = false) : dropEndWhile p a = a := by
  cases a using List.reverseRecOn with
  | nil => rfl
  | append_singleton a c => exact dropEndWhile_concat_of_neg (h c (by simp))

theorem trim_append_left (h : a.all isBlank = true) : trim (a ++ b) = trim b := by
  rw [trim, trim, dropBlanks, dropBlanks, List.dropWhile_append_of_pos (List.all_eq_true.1 h)]

theorem trim_eq_self (hfirst : ∀ c ∈ a.head?, isBlank c = false)
    (hlast : ∀ c ∈ a.getLast?, isBlank c = false) : trim a = a := by
  have hstart : dropBlanks a = a := by
    cases a with
    | nil => rfl
    | cons c a => exact List.dropWhile_cons_of_neg (by simp [hfirst c rfl])
  rw [trim, hstart]
  exact dropEndWhile_eq_self hlast

end ends

section parts

theorem splitOn_of_notMem (h : c ∉ a) : splitOn c a = [a] := by
  induction a with
  | nil => rfl
  | cons d a ih =>
    rw [List.mem_cons, not_or] at h
    rw [splitOn, if_neg (Ne.symm h.1), ih h.2]

theorem splitOn_append_cons (h : c ∉ a) : splitOn c (a ++ c :: b) = a :: splitOn c b := by
  induction a with
  | nil => simp [splitOn]
  | cons d a ih =>
    rw [List.mem_cons, not_or] at h
    rw [List.cons_append, splitOn, if_neg (Ne.symm h.1), ih h.2]

end parts

section numbers

variable {n limit value : Nat}

/-- A number in decimal digits. -/
def digits (n : Nat) : List Char := (toString n).toList

theorem digits_eq (n : Nat) : digits n = Nat.toDigits 10 n := by
  rw [digits, Nat.toString_eq_repr, Nat.toList_repr]

theorem isDigit_of_mem_digits (h : c ∈ digits n) : c.isDigit = true :=
  Nat.isDigit_of_mem_toDigits (by decide) (Nat.le_refl 10) (digits_eq n ▸ h)

theorem digits_ne_nil (n : Nat) : digits n ≠ [] := digits_eq n ▸ Nat.toDigits_ne_nil

theorem isBlank_of_isDigit (h : c.isDigit = true) : isBlank c = false := by
  simp only [Char.isDigit, Bool.and_eq_true, decide_eq_true_eq, ge_iff_le, UInt32.le_iff_toNat_le]
    at h
  have hval : c.val.toNat = c.toNat := rfl
  simp only [isBlank, blankRanges, List.any_cons, List.any_nil, Bool.or_false, Bool.or_eq_false_iff,
    Bool.and_eq_false_iff, decide_eq_false_iff_not]
  simp at h
  omega

theorem digitsValue?_eq (h : ∀ c ∈ a, c.isDigit = true) :
    digitsValue? value a = some (Nat.ofDigitChars 10 a value) := by
  induction a generalizing value with
  | nil => rfl
  | cons c a ih =>
    rw [digitsValue?, if_pos (h c List.mem_cons_self),
      ih fun c hc => h c (List.mem_cons_of_mem _ hc), Nat.ofDigitChars_cons]

theorem number?_digits (h : n ≤ limit) : number? limit (digits n) = some n := by
  have hvalue : digitsValue? 0 (digits n) = some n := by
    rw [digitsValue?_eq fun _ => isDigit_of_mem_digits, digits_eq, Nat.ofDigitChars_ten_toDigits]
  unfold number?
  split
  · rename_i _ rest heq
    have hplus : '+' ∈ digits n := heq ▸ List.mem_cons_self
    cases isDigit_of_mem_digits hplus
  · simp [digits_ne_nil, hvalue, h]

end numbers

end GrammarWalk.Text
