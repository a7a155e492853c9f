import GrammarWalk.SymbolSet.Lemmas
import Mathlib.Algebra.Group.Int.Defs
import Mathlib.Order.Lattice

/-! Symbol sets in words of 32 bits. Comparisons with a neighbour are made in wider numbers; what is
stored is made narrow again, and there the arithmetic could leave the range of a word. It never
does: each operation on words that stand for a set gives words that stand for the result. -/

namespace GrammarWalk

structure WordSpan where
  lo : Int32
  hi : Int32
deriving DecidableEq, Repr, Inhabited

namespace WordSpan

def span (a : WordSpan) : Span := ⟨a.lo.toInt, a.hi.toInt⟩

/-- The word of a number; nothing if the number has more bits than a word. -/
def word? (v : Int) : Option Int32 :=
  if h : Int32.minValue.toInt ≤ v ∧ v ≤ Int32.maxValue.toInt then some (Int32.ofIntLE v h.1 h.2)
    else none

/-- Stores a merged span in front of spans in order, less those that start no later than just behind
`limit`. -/
def absorb (limit : Int32) (merged : WordSpan) : List WordSpan → List WordSpan
  | [] => [merged]
  | b :: l =>
    if b.lo.toInt ≤ limit.toInt + 1 then absorb limit ⟨min merged.lo b.lo, max merged.hi b.hi⟩ l
    else merged :: b :: l

/-- Adds a span, which takes the place of all those that overlap or touch it. -/
def insertInto (a : WordSpan) (l : List WordSpan) : List WordSpan :=
  if a.hi < a.lo then l
  else
    let isBefore (b : WordSpan) : Bool := b.hi.toInt + 1 < a.lo.toInt
    l.takeWhile isBefore ++ absorb a.hi a (l.dropWhile isBefore)

def below? (b : WordSpan) (v : Int32) : Option (List WordSpan) :=
  if b.lo < v then (word? (v.toInt - 1)).map fun hi => [⟨b.lo, hi⟩] else some []

def above? (b : WordSpan) (v : Int32) : Option (List WordSpan) :=
  if v < b.hi then (word? (v.toInt + 1)).map fun lo => [⟨lo, b.hi⟩] else some []

def eraseFrom? (v : Int32) : List WordSpan → Option (List WordSpan)
  | [] => some []
  | b :: l =>
    if b.lo ≤ v ∧ v ≤ b.hi then do return (← b.below? v) ++ (← b.above? v) ++ l
    else (eraseFrom? v l).map (b :: ·)

/-- Adds what spans in order leave out of `next` to `hi`. -/
def addGaps? (hi : Int32) (next : Int) (found : List WordSpan) :
    List WordSpan → Option (List WordSpan)
  | [] => addRest
  | b :: l =>
    if b.hi.toInt < next then addGaps? hi next found l
    else if hi < b.lo then addRest
    else if next < b.lo.toInt then do
      let gap : WordSpan := ⟨← word? next, ← word? (b.lo.toInt - 1)⟩
      addGaps? hi (b.hi.toInt + 1) (insertInto gap found) l
    else addGaps? hi (b.hi.toInt + 1) found l
where
  addRest : Option (List WordSpan) :=
    if next ≤ hi.toInt then (word? next).map fun lo => insertInto ⟨lo, hi⟩ found else some found

/-- The first span that does not end below the word tells whether the word is a member. -/
def contains (l : List WordSpan) (v : Int32) : Bool := (l.dropWhile (·.hi < v)).head?.any (·.lo ≤ v)

variable {a b merged : WordSpan} {l found : List WordSpan} {s t : SymbolSet}
  {v lo hi limit : Int32} {next : Int}

theorem word?_eq_some {n : Int} (hlo : -2 ^ 31 ≤ n) (hhi : n < 2 ^ 31) :
    ∃ w, word? n = some w ∧ w.toInt = n := by
  have hrange : Int32.minValue.toInt ≤ n ∧ n ≤ Int32.maxValue.toInt := by
    rw [Int32.toInt_minValue, Int32.toInt_maxValue]
    omega
  exact ⟨_, dif_pos hrange, Int32.toInt_ofIntLE⟩

theorem toInt_min (x y : Int32) : (min x y).toInt = min x.toInt y.toInt := by
  rw [Std.min_eq_if, Int.min_def, apply_ite Int32.toInt]
  simp only [Int32.le_iff_toInt_le]

theorem toInt_max (x y : Int32) : (max x y).toInt = max x.toInt y.toInt := by
  show (if x ≤ y then y else x).toInt = _
  rw [Int.max_def, apply_ite Int32.toInt]
  simp only [Int32.le_iff_toInt_le]

theorem contains_span : b.span.contains v.toInt = true ↔ b.lo ≤ v ∧ v ≤ b.hi := by
  simp only [Span.contains, Bool.and_eq_true, decide_eq_true_eq, Int32.le_iff_toInt_le]
  exact Iff.rfl

theorem span_injective : Function.Injective span := by
  rintro ⟨lo, hi⟩ ⟨lo', hi'⟩ h
  obtain ⟨hlo, hhi⟩ := Span.mk.inj h
  exact congrArg₂ mk (Int32.toInt_inj.1 hlo) (Int32.toInt_inj.1 hhi)

def Stand (l : List WordSpan) (s : SymbolSet) : Prop := l.map span = s.spans

/--
A span that grows is compared by the end that it had at first. That comes to the same: a span that
reaches behind this end has its own gap to the next one.
-/
theorem map_absorb (hl : Span.Canonical (l.map span)) (hlimit : limit.toInt ≤ merged.hi.toInt)
    (hgap : merged.hi = limit ∨ ∀ b ∈ l, merged.hi.toInt + 1 < b.lo.toInt)
    (hafter : ∀ b ∈ l, merged.lo.toInt ≤ b.hi.toInt + 1) :
    (absorb limit merged l).map span = Span.insertInto merged.span (l.map span) := by
  induction l generalizing merged with
  | nil => rfl
  | cons b l ih =>
    obtain ⟨hb, hbl, hl⟩ := Span.canonical_cons.1 hl
    have hnot : ¬ b.span.hi + 1 < merged.span.lo := by
      have := hafter b (by simp)
      simp only [span]
      omega
    rw [absorb, List.map_cons, Span.insertInto, if_neg hnot]
    split
    · rename_i htouch
      have hmeet : ¬ merged.span.hi + 1 < b.span.lo := by
        simp only [span]
        omega
      have hspan : span ⟨min merged.lo b.lo, max merged.hi b.hi⟩ =
          ⟨min merged.span.lo b.span.lo, max merged.span.hi b.span.hi⟩ := by
        simp only [span, toInt_min, toInt_max]
      rw [if_neg hmeet, ← hspan]
      refine ih hl ?_ ?_ fun c hc => ?_
      · rw [toInt_max]
        omega
      · -- the span still ends where it did, or now ends with `b`, which has a gap to the next
        rcases Int.le_total b.hi.toInt merged.hi.toInt with hle | hle
        · have hsame : max merged.hi b.hi = merged.hi :=
            Int32.toInt_inj.1 (by rw [toInt_max, max_eq_left hle])
          rw [hsame]
          exact hgap.imp_right fun h c hc => h c (List.mem_cons_of_mem _ hc)
        · refine .inr fun c hc => ?_
          rw [toInt_max, max_eq_right hle]
          exact hbl c.span (List.mem_map_of_mem hc)
      · have := hafter c (List.mem_cons_of_mem _ hc)
        rw [toInt_min]
        omega
    · rename_i htouch
      have hapart : merged.span.hi + 1 < b.span.lo := by
        rcases hgap with h | h
        · simp only [span, h]
          omega
        · exact h b (by simp)
      rw [if_pos hapart]
      rfl

theorem map_insertInto (ha : a.lo ≤ a.hi) (hl : Span.Canonical (l.map span)) :
    (insertInto a l).map span = Span.insertInto a.span (l.map span) := by
  have hle := Int32.le_iff_toInt_le.1 ha
  rw [insertInto, if_neg (by rw [Int32.lt_iff_toInt_lt]; omega)]
  dsimp only
  induction l with
  | nil => rfl
  | cons b l ih =>
    obtain ⟨hb, hbl, hl'⟩ := Span.canonical_cons.1 hl
    by_cases hbefore : b.hi.toInt + 1 < a.lo.toInt
    · rw [List.takeWhile_cons_of_pos (by simpa using hbefore),
        List.dropWhile_cons_of_pos (by simpa using hbefore),
        List.cons_append, List.map_cons, ih hl', List.map_cons, Span.insertInto,
        if_pos (by simpa [span] using hbefore)]
    · rw [List.takeWhile_cons_of_neg (by simpa using hbefore),
        List.dropWhile_cons_of_neg (by simpa using hbefore),
        List.nil_append]
      refine map_absorb hl le_rfl (.inl rfl) (List.forall_mem_cons.2 ⟨by omega, fun c hc => ?_⟩)
      have hlast := hbl c.span (List.mem_map_of_mem hc)
      have hc := hl'.1 c.span (List.mem_map_of_mem hc)
      simp only [Span.Before, span] at hlast hc
      simp only [span] at hb
      omega

namespace Stand

theorem nil : Stand [] ∅ := rfl

theorem insertInto (h : Stand l s) (a : WordSpan) :
    Stand (insertInto a l) (s.insertSpan a.lo.toInt a.hi.toInt) := by
  unfold Stand SymbolSet.insertSpan
  split
  · rename_i hle
    rw [map_insertInto (Int32.le_iff_toInt_le.2 hle) (h ▸ s.canonical), h]
    rfl
  · rename_i hle
    rw [WordSpan.insertInto, if_pos (Int32.lt_iff_toInt_lt.2 (by omega)), h]

theorem union (h : Stand l s) {m : List WordSpan} (hm : Stand m t) :
    Stand (m.foldl (fun l a => WordSpan.insertInto a l) l) (s ∪ t) := by
  have hspans : s ∪ t = (m.map span).foldl (fun s a => s.insertSpan a.lo a.hi) s := by
    rw [hm]
    rfl
  rw [hspans]
  clear hm hspans
  induction m generalizing l s with
  | nil => exact h
  | cons a m ih => exact ih (h.insertInto a)

theorem below? (b : WordSpan) (v : Int32) : ∃ m, b.below? v = some m ∧
    m.map span = if b.span.lo < v.toInt then [⟨b.span.lo, v.toInt - 1⟩] else [] := by
  rw [WordSpan.below?, span]
  simp only [← Int32.lt_iff_toInt_lt]
  split
  · rename_i hlt
    have := Int32.lt_iff_toInt_lt.1 hlt
    have := Int32.le_toInt b.lo
    have := Int32.toInt_lt v
    obtain ⟨w, hw, hwv⟩ := word?_eq_some (n := v.toInt - 1) (by omega) (by omega)
    exact ⟨_, by rw [hw]; rfl, by simp [span, hwv]⟩
  · exact ⟨[], rfl, rfl⟩

theorem above? (b : WordSpan) (v : Int32) : ∃ m, b.above? v = some m ∧
    m.map span = if v.toInt < b.span.hi then [⟨v.toInt + 1, b.span.hi⟩] else [] := by
  rw [WordSpan.above?, span]
  simp only [← Int32.lt_iff_toInt_lt]
  split
  · rename_i hlt
    have := Int32.lt_iff_toInt_lt.1 hlt
    have := Int32.le_toInt v
    have := Int32.toInt_lt b.hi
    obtain ⟨w, hw, hwv⟩ := word?_eq_some (n := v.toInt + 1) (by omega) (by omega)
    exact ⟨_, by rw [hw]; rfl, by simp [span, hwv]⟩
  · exact ⟨[], rfl, rfl⟩

theorem eraseFrom? (h : Stand l s) (v : Int32) :
    ∃ l', eraseFrom? v l = some l' ∧ Stand l' (s.erase v.toInt) := by
  suffices key : ∃ l', WordSpan.eraseFrom? v l = some l' ∧
      l'.map span = Span.eraseFrom v.toInt (l.map span) by
    obtain ⟨l', hl', hmap⟩ := key
    exact ⟨l', hl', by rw [Stand, hmap, h]; rfl⟩
  clear h
  induction l with
  | nil => exact ⟨[], rfl, rfl⟩
  | cons b l ih =>
    rw [WordSpan.eraseFrom?, List.map_cons, Span.eraseFrom]
    simp only [contains_span]
    split
    · obtain ⟨below, hbelow, hbelow'⟩ := below? b v
      obtain ⟨above, habove, habove'⟩ := above? b v
      refine ⟨below ++ above ++ l, ?_, ?_⟩
      · rw [hbelow, habove]
        rfl
      · rw [List.map_append, List.map_append, hbelow', habove']
    · obtain ⟨l', hl', hmap⟩ := ih
      exact ⟨b :: l', by rw [hl']; rfl, by rw [List.map_cons, hmap]⟩

theorem addRest (hi : Int32) (h : Stand found t) (hnext : -2 ^ 31 ≤ next) :
    ∃ l' s', addGaps?.addRest hi next found = some l' ∧
    Stand l' s' ∧ ∀ v, v ∈ s' ↔ v ∈ t ∨ next ≤ v ∧ v ≤ hi.toInt := by
  unfold addGaps?.addRest
  split
  · have := Int32.toInt_lt hi
    obtain ⟨w, hw, rfl⟩ := word?_eq_some hnext (by omega)
    exact ⟨_, _, by rw [hw]; rfl, h.insertInto ⟨w, hi⟩,
      fun v => SymbolSet.mem_insertSpan.trans or_comm⟩
  · rename_i hnone
    refine ⟨found, t, rfl, h, fun v => (or_iff_left ?_).symm⟩
    omega

theorem addGaps? (hi : Int32) (hl : Span.Canonical (l.map span)) (h : Stand found t)
    (hnext : -2 ^ 31 ≤ next) :
    ∃ l' s', addGaps? hi next found l = some l' ∧ Stand l' s' ∧
      ∀ v, v ∈ s' ↔ v ∈ t ∨ next ≤ v ∧ v ≤ hi.toInt ∧ ¬ Span.Covers (l.map span) v := by
  induction l generalizing next found t with
  | nil =>
    obtain ⟨l', s', hl', hs', hmem⟩ := addRest hi h hnext
    exact ⟨l', s', hl', hs', fun v => (hmem v).trans (by simp [Span.covers_nil])⟩
  | cons b l ih =>
    obtain ⟨hb, hbl, hl'⟩ := Span.canonical_cons.1 hl
    have hlo := Int32.toInt_lt b.lo
    have hhi := Int32.le_toInt b.hi
    have hlater {v : Int} : Span.Covers (l.map span) v → b.hi.toInt + 1 < v := Span.lt_of_covers hbl
    simp only [span] at hb
    rw [WordSpan.addGaps?, List.map_cons]
    simp only [Span.covers_cons, Int32.lt_iff_toInt_lt, span]
    by_cases hpast : b.hi.toInt < next
    · rw [if_pos hpast]
      obtain ⟨l', s', hl', hs', hmem⟩ := ih hl' h hnext
      refine ⟨l', s', hl', hs', fun v => (hmem v).trans (or_congr_right ?_)⟩
      grind
    rw [if_neg hpast]
    by_cases hend : hi.toInt < b.lo.toInt
    · rw [if_pos hend]
      obtain ⟨l', s', hl', hs', hmem⟩ := addRest hi h hnext
      refine ⟨l', s', hl', hs', fun v => (hmem v).trans (or_congr_right ?_)⟩
      grind
    rw [if_neg hend]
    by_cases hgap : next < b.lo.toInt
    · rw [if_pos hgap]
      obtain ⟨w, hw, hwnext⟩ := word?_eq_some hnext (by omega)
      obtain ⟨u, hu, hulo⟩ := word?_eq_some (n := b.lo.toInt - 1) (by omega) (by omega)
      obtain ⟨l', s', hl', hs', hmem⟩ :=
        ih hl' (h.insertInto ⟨w, u⟩) (show -2 ^ 31 ≤ b.hi.toInt + 1 by omega)
      refine ⟨l', s', by rw [hw, hu]; exact hl', hs', fun v => (hmem v).trans ?_⟩
      rw [SymbolSet.mem_insertSpan, hwnext, hulo]
      grind
    · rw [if_neg hgap]
      obtain ⟨l', s', hl', hs', hmem⟩ := ih hl' h (show -2 ^ 31 ≤ b.hi.toInt + 1 by omega)
      refine ⟨l', s', hl', hs', fun v => (hmem v).trans (or_congr_right ?_)⟩
      grind

theorem complement (h : Stand l s) (lo hi : Int32) :
    ∃ l', WordSpan.addGaps? hi lo.toInt [] l = some l' ∧
    Stand l' (s.complement lo.toInt hi.toInt) := by
  obtain ⟨l', s', hl', hs', hmem⟩ := addGaps? hi (h ▸ s.canonical) nil (Int32.le_toInt lo)
  have heq : s' = s.complement lo.toInt hi.toInt := by
    refine SymbolSet.ext fun v => ?_
    rw [hmem, h, SymbolSet.mem_complement, SymbolSet.mem_iff_covers (s := s)]
    simp
  exact ⟨l', hl', heq ▸ hs'⟩

theorem contains (h : Stand l s) (v : Int32) : WordSpan.contains l v = s.contains v.toInt := by
  unfold SymbolSet.contains
  have hl : Span.Canonical (l.map span) := h ▸ s.canonical
  rw [← h]
  clear h
  induction l with
  | nil => rfl
  | cons b l ih =>
    obtain ⟨hb, hbl, hl⟩ := Span.canonical_cons.1 hl
    rw [List.map_cons, List.any_cons, Bool.eq_iff_iff, Bool.or_eq_true, contains_span]
    by_cases hv : b.hi < v
    · rw [WordSpan.contains, List.dropWhile_cons_of_pos (by simpa using hv)]
      refine (Bool.eq_iff_iff.1 (ih hl)).trans (or_iff_right fun h => ?_).symm
      have := Int32.lt_iff_toInt_lt.1 hv
      have := Int32.le_iff_toInt_le.1 h.2
      omega
    · have hle : v.toInt ≤ b.hi.toInt := by
        have := mt Int32.lt_iff_toInt_lt.2 hv
        omega
      have hlater : ¬ (l.map span).any (·.contains v.toInt) = true := by
        simp only [List.any_eq_true, Span.contains, Bool.and_eq_true, decide_eq_true_eq, not_exists]
        rintro c ⟨hc, hlo, -⟩
        have := hbl c hc
        simp only [Span.Before, span] at this
        omega
      rw [WordSpan.contains, List.dropWhile_cons_of_neg (by simpa using hv), or_iff_left hlater,
        List.head?_cons, Option.any_some, decide_eq_true_eq,
        and_iff_left (Int32.le_iff_toInt_le.2 hle)]

end Stand

end WordSpan

end GrammarWalk
