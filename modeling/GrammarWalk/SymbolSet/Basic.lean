/-!
Sets of symbols, kept as ascending spans. A symbol is an `Int`: a character code, a token type or
one of two markers. The spans of a set are not empty and do not touch, so a set has one form: two
sets with the same members are equal (`SymbolSet.ext` in `SymbolSet/Lemmas`).
-/

namespace GrammarWalk

/-- The symbol after the last one of an input. -/
def Symbol.eof : Int := -1

/-- Stands in a look-ahead set for "the rule can end here". -/
def Symbol.ruleEnd : Int := -2

/-- The least token type a grammar can use, and the least symbol a wildcard accepts. -/
def Symbol.minToken : Int := 1

def Symbol.minChar : Int := 0

def Symbol.maxChar : Int := 0x10FFFF

/-- The symbols from `lo` to `hi`, both included; none of them when `hi < lo`. -/
structure Span where
  lo : Int
  hi : Int
deriving DecidableEq, Repr, Inhabited, Hashable

namespace Span

def size (s : Span) : Nat := (s.hi - s.lo + 1).toNat

def isEmpty (s : Span) : Bool := s.hi < s.lo

def contains (s : Span) (v : Int) : Bool := s.lo ≤ v && v ≤ s.hi

def toList (s : Span) : List Int := (List.range s.size).map fun (i : Nat) => s.lo + i

/-- There is a missing symbol between the end of `a` and the start of `b`. -/
def Before (a b : Span) : Prop := a.hi + 1 < b.lo

/-- The one form of a list of spans: each has a member, and the next starts after a gap. -/
def Canonical (l : List Span) : Prop := (∀ s ∈ l, s.lo ≤ s.hi) ∧ l.Pairwise Before

theorem canonical_nil : Canonical [] := ⟨by simp, .nil⟩

theorem canonical_cons {a : Span} {l : List Span} :
    Canonical (a :: l) ↔ a.lo ≤ a.hi ∧ (∀ s ∈ l, a.Before s) ∧ Canonical l := by
  simp only [Canonical, List.mem_cons, forall_eq_or_imp, List.pairwise_cons]
  constructor
  · rintro ⟨⟨h, hl⟩, hb, hp⟩; exact ⟨h, hb, hl, hp⟩
  · rintro ⟨h, hb, hl, hp⟩; exact ⟨⟨h, hl⟩, hb, hp⟩

/-- Adds a span and swallows every span that overlaps or touches it. -/
def insertInto (a : Span) : List Span → List Span
  | [] => [a]
  | b :: l =>
    if b.hi + 1 < a.lo then b :: insertInto a l
    else if a.hi + 1 < b.lo then a :: b :: l
    else insertInto ⟨min a.lo b.lo, max a.hi b.hi⟩ l

theorem lo_of_mem_insertInto {a s : Span} {l : List Span} (h : s ∈ insertInto a l) :
    a.lo ≤ s.lo ∨ ∃ b ∈ l, b.lo ≤ s.lo := by
  induction l generalizing a with
  | nil => simp [insertInto] at h; simp [h]
  | cons b l ih =>
    simp only [insertInto] at h
    split at h
    · rcases List.mem_cons.1 h with rfl | h
      · exact .inr ⟨s, by simp, Int.le_refl _⟩
      · rcases ih h with h | ⟨c, hc, h⟩
        · exact .inl h
        · exact .inr ⟨c, by simp [hc], h⟩
    · split at h
      · rcases List.mem_cons.1 h with rfl | h
        · exact .inl (Int.le_refl _)
        · exact .inr ⟨s, h, Int.le_refl _⟩
      · rcases ih h with h | ⟨c, hc, h⟩
        · rcases Int.le_total a.lo b.lo with hab | hab
          · exact .inl (by simp only [Int.min_def, if_pos hab] at h; exact h)
          · refine .inr ⟨b, by simp, ?_⟩
            simp only at h; omega
        · exact .inr ⟨c, by simp [hc], h⟩

theorem canonical_insertInto {a : Span} {l : List Span} (ha : a.lo ≤ a.hi) (hl : Canonical l) :
    Canonical (insertInto a l) := by
  induction l generalizing a with
  | nil => exact canonical_cons.2 ⟨ha, by simp, canonical_nil⟩
  | cons b l ih =>
    obtain ⟨hb, hbl, hl⟩ := canonical_cons.1 hl
    simp only [insertInto]
    split
    · refine canonical_cons.2 ⟨hb, fun s hs => ?_, ih ha hl⟩
      rcases lo_of_mem_insertInto hs with h | ⟨c, hc, h⟩
      · simp only [Before]; omega
      · have := hbl c hc
        simp only [Before] at this ⊢; omega
    · split
      · refine canonical_cons.2 ⟨ha, fun s hs => ?_, canonical_cons.2 ⟨hb, hbl, hl⟩⟩
        rcases List.mem_cons.1 hs with rfl | hs
        · assumption
        · have := hbl s hs
          simp only [Before] at this ⊢; omega
      · exact ih (by simp only; omega) hl

/-- Takes one symbol out; the span that held it is cut in two. -/
def eraseFrom (v : Int) : List Span → List Span
  | [] => []
  | b :: l =>
    if b.contains v then
      (if b.lo < v then [⟨b.lo, v - 1⟩] else []) ++ (if v < b.hi then [⟨v + 1, b.hi⟩] else []) ++ l
    else b :: eraseFrom v l

theorem lo_of_mem_eraseFrom {v : Int} {s : Span} {l : List Span} (h : s ∈ eraseFrom v l) :
    ∃ b ∈ l, b.lo ≤ s.lo ∧ s.hi ≤ b.hi := by
  induction l with
  | nil => simp [eraseFrom] at h
  | cons b l ih =>
    simp only [eraseFrom] at h
    split at h
    · rename_i hv
      simp only [contains, Bool.and_eq_true, decide_eq_true_eq] at hv
      simp only [List.mem_append] at h
      rcases h with (h | h) | h
      · split at h <;> simp at h
        subst h; exact ⟨b, by simp, Int.le_refl _, by simp only; omega⟩
      · split at h <;> simp at h
        subst h; exact ⟨b, by simp, by simp only; omega, Int.le_refl _⟩
      · exact ⟨s, by simp [h], Int.le_refl _, Int.le_refl _⟩
    · rcases List.mem_cons.1 h with rfl | h
      · exact ⟨s, by simp, Int.le_refl _, Int.le_refl _⟩
      · obtain ⟨c, hc, h⟩ := ih h
        exact ⟨c, by simp [hc], h⟩

theorem canonical_eraseFrom {v : Int} {l : List Span} (hl : Canonical l) :
    Canonical (eraseFrom v l) := by
  induction l with
  | nil => exact canonical_nil
  | cons b l ih =>
    obtain ⟨hb, hbl, hl⟩ := canonical_cons.1 hl
    simp only [eraseFrom]
    split
    · rename_i hv
      simp only [contains, Bool.and_eq_true, decide_eq_true_eq] at hv
      have right : Canonical ((if v < b.hi then [⟨v + 1, b.hi⟩] else []) ++ l) := by
        split
        · exact canonical_cons.2 ⟨by simp only; omega, fun s hs => hbl s hs, hl⟩
        · exact hl
      rw [List.append_assoc]
      split
      · rw [List.singleton_append]
        refine canonical_cons.2 ⟨by simp only; omega, fun s hs => ?_, right⟩
        rcases List.mem_append.1 hs with hs | hs
        · split at hs <;> simp at hs
          subst hs; simp only [Before]; omega
        · have := hbl s hs
          simp only [Before] at this ⊢; omega
      · exact right
    · refine canonical_cons.2 ⟨hb, fun s hs => ?_, ih hl⟩
      obtain ⟨c, hc, h, -⟩ := lo_of_mem_eraseFrom hs
      have := hbl c hc
      simp only [Before] at this ⊢; omega

/-- What the spans of a list leave out of `next` to `hi`. -/
def gaps (next hi : Int) : List Span → List Span
  | [] => if next ≤ hi then [⟨next, hi⟩] else []
  | b :: l =>
    if b.hi < next then gaps next hi l
    else if hi < b.lo then if next ≤ hi then [⟨next, hi⟩] else []
    else if next < b.lo then ⟨next, b.lo - 1⟩ :: gaps (b.hi + 1) hi l
    else gaps (b.hi + 1) hi l

theorem lo_of_mem_gaps {next hi : Int} {s : Span} {l : List Span} (hl : ∀ b ∈ l, b.lo ≤ b.hi)
    (h : s ∈ gaps next hi l) : next ≤ s.lo := by
  induction l generalizing next with
  | nil => simp only [gaps] at h; split at h <;> simp at h; simp [h]
  | cons b l ih =>
    have hb := hl b (by simp)
    have ih : ∀ {n}, s ∈ gaps n hi l → n ≤ s.lo := ih fun c hc => hl c (by simp [hc])
    simp only [gaps] at h
    split at h
    · exact ih h
    · split at h
      · split at h <;> simp at h; simp [h]
      · split at h
        · rcases List.mem_cons.1 h with rfl | h
          · exact Int.le_refl _
          · have := ih h; omega
        · have := ih h; omega

theorem canonical_gaps {next hi : Int} {l : List Span} (hl : ∀ b ∈ l, b.lo ≤ b.hi) :
    Canonical (gaps next hi l) := by
  induction l generalizing next with
  | nil =>
    simp only [gaps]
    split
    · exact canonical_cons.2 ⟨by assumption, by simp, canonical_nil⟩
    · exact canonical_nil
  | cons b l ih =>
    have hb := hl b (by simp)
    have hl : ∀ c ∈ l, c.lo ≤ c.hi := fun c hc => hl c (by simp [hc])
    have ih : ∀ {n}, Canonical (gaps n hi l) := ih hl
    simp only [gaps]
    split
    · exact ih
    · split
      · split
        · exact canonical_cons.2 ⟨by assumption, by simp, canonical_nil⟩
        · exact canonical_nil
      · split
        · refine canonical_cons.2 ⟨by simp only; omega, fun s hs => ?_, ih⟩
          have := lo_of_mem_gaps hl hs
          simp only [Before]; omega
        · exact ih

/-- The first `n` symbols of the spans, without listing the rest. -/
def first (n : Nat) : List Span → List Int
  | [] => []
  | b :: l =>
    let k := min n b.size
    (List.range k).map (fun (i : Nat) => b.lo + i) ++ first (n - k) l

end Span

structure SymbolSet where
  spans : List Span
  canonical : Span.Canonical spans
deriving DecidableEq

namespace SymbolSet

instance : Repr SymbolSet := ⟨fun s => reprPrec s.spans⟩

instance : Hashable SymbolSet := ⟨fun s => hash s.spans⟩

def empty : SymbolSet := ⟨[], Span.canonical_nil⟩

instance : EmptyCollection SymbolSet := ⟨empty⟩

instance : Inhabited SymbolSet := ⟨∅⟩

/-- Adds every symbol from `lo` to `hi`; nothing when `hi < lo`. -/
def insertSpan (s : SymbolSet) (lo hi : Int) : SymbolSet :=
  if h : lo ≤ hi then ⟨Span.insertInto ⟨lo, hi⟩ s.spans, Span.canonical_insertInto h s.canonical⟩
  else s

def insert (s : SymbolSet) (v : Int) : SymbolSet := s.insertSpan v v

def ofSpan (lo hi : Int) : SymbolSet := insertSpan ∅ lo hi

def singleton (v : Int) : SymbolSet := insert ∅ v

def ofList (vs : List Int) : SymbolSet := vs.foldl insert ∅

def ofSpans (spans : List Span) : SymbolSet := spans.foldl (fun s a => s.insertSpan a.lo a.hi) ∅

def union (s t : SymbolSet) : SymbolSet := t.spans.foldl (fun s a => s.insertSpan a.lo a.hi) s

instance : Union SymbolSet := ⟨union⟩

def erase (s : SymbolSet) (v : Int) : SymbolSet :=
  ⟨Span.eraseFrom v s.spans, Span.canonical_eraseFrom s.canonical⟩

/-- The symbols from `lo` to `hi` that are not in the set. -/
def complement (s : SymbolSet) (lo hi : Int) : SymbolSet :=
  ⟨Span.gaps lo hi s.spans, Span.canonical_gaps s.canonical.1⟩

def contains (s : SymbolSet) (v : Int) : Bool := s.spans.any (·.contains v)

instance : Membership Int SymbolSet := ⟨fun s v => s.contains v = true⟩

instance (v : Int) (s : SymbolSet) : Decidable (v ∈ s) :=
  inferInstanceAs (Decidable (s.contains v = true))

def isEmpty (s : SymbolSet) : Bool := s.spans.isEmpty

def size (s : SymbolSet) : Nat := (s.spans.map Span.size).foldr (· + ·) 0

def min? (s : SymbolSet) : Option Int := s.spans.head?.map (·.lo)

def max? (s : SymbolSet) : Option Int := s.spans.getLast?.map (·.hi)

/-- The members in ascending order. -/
def toList (s : SymbolSet) : List Int := s.spans.flatMap Span.toList

/-- The `n` least members in ascending order. -/
def first (s : SymbolSet) (n : Nat) : List Int := Span.first n s.spans

end SymbolSet

end GrammarWalk
