import GrammarWalk.SymbolSet.Basic

/-!
Membership in a symbol set after each operation, and the reason for the canonical form: the spans
are a function of the members (`SymbolSet.ext`).
-/

namespace GrammarWalk

namespace Span

/-- Some span of the list holds `v`. -/
def Covers (l : List Span) (v : Int) : Prop := ∃ s ∈ l, s.lo ≤ v ∧ v ≤ s.hi

theorem covers_nil (v : Int) : ¬ Covers [] v := by simp [Covers]

theorem covers_cons {a : Span} {l : List Span} {v : Int} :
    Covers (a :: l) v ↔ (a.lo ≤ v ∧ v ≤ a.hi) ∨ Covers l v := by simp [Covers]

theorem covers_append {l m : List Span} {v : Int} :
    Covers (l ++ m) v ↔ Covers l v ∨ Covers m v := by
  simp only [Covers, List.mem_append]
  constructor
  · rintro ⟨s, hs | hs, h⟩
    · exact .inl ⟨s, hs, h⟩
    · exact .inr ⟨s, hs, h⟩
  · rintro (⟨s, hs, h⟩ | ⟨s, hs, h⟩)
    · exact ⟨s, .inl hs, h⟩
    · exact ⟨s, .inr hs, h⟩

theorem covers_insertInto {a : Span} {l : List Span} {v : Int} (ha : a.lo ≤ a.hi)
    (hl : Canonical l) : Covers (insertInto a l) v ↔ (a.lo ≤ v ∧ v ≤ a.hi) ∨ Covers l v := by
  induction l generalizing a with
  | nil => simp [insertInto, covers_cons]
  | cons b l ih =>
    obtain ⟨hb, -, hl⟩ := canonical_cons.1 hl
    simp only [insertInto]
    split
    · rw [covers_cons, ih ha hl, covers_cons]
      simp only [or_left_comm]
    · split
      · rw [covers_cons]
      · rw [ih (by simp only; omega) hl, covers_cons, ← or_assoc]
        refine or_congr_left ?_
        simp only
        omega

theorem lt_of_covers {a : Span} {l : List Span} {v : Int} (h : ∀ s ∈ l, a.Before s)
    (hv : Covers l v) : a.hi + 1 < v := by
  obtain ⟨s, hs, h1, -⟩ := hv
  have := h s hs
  simp only [Before] at this
  omega

theorem covers_eraseFrom {v w : Int} {l : List Span} (hl : Canonical l) :
    Covers (eraseFrom v l) w ↔ Covers l w ∧ w ≠ v := by
  induction l with
  | nil => simp [eraseFrom, covers_nil]
  | cons b l ih =>
    obtain ⟨hb, hbl, hl⟩ := canonical_cons.1 hl
    simp only [eraseFrom]
    split
    · rename_i hv
      simp only [contains, Bool.and_eq_true, decide_eq_true_eq] at hv
      have hw : Covers l w → b.hi + 1 < w := lt_of_covers hbl
      rw [covers_append, covers_append, covers_cons]
      have h1 : Covers (if b.lo < v then [⟨b.lo, v - 1⟩] else []) w ↔ b.lo ≤ w ∧ w < v := by
        split
        · simp only [covers_cons, covers_nil, or_false]
          omega
        · exact iff_of_false (covers_nil w) (by omega)
      have h2 : Covers (if v < b.hi then [⟨v + 1, b.hi⟩] else []) w ↔ v < w ∧ w ≤ b.hi := by
        split
        · simp only [covers_cons, covers_nil, or_false]
          omega
        · exact iff_of_false (covers_nil w) (by omega)
      rw [h1, h2]
      by_cases h : Covers l w
      · have := hw h
        simp only [h, or_true, true_and, true_iff]
        omega
      · simp only [h, or_false]
        omega
    · rename_i hv
      simp only [contains, Bool.and_eq_true, decide_eq_true_eq] at hv
      rw [covers_cons, covers_cons, ih hl]
      constructor
      · rintro (h | ⟨h, hne⟩)
        · exact ⟨.inl h, by omega⟩
        · exact ⟨.inr h, hne⟩
      · rintro ⟨h | h, hne⟩
        · exact .inl h
        · exact .inr ⟨h, hne⟩

theorem covers_gaps {next hi v : Int} {l : List Span} (hl : Canonical l) :
    Covers (gaps next hi l) v ↔ next ≤ v ∧ v ≤ hi ∧ ¬ Covers l v := by
  induction l generalizing next with
  | nil =>
    simp only [gaps, covers_nil, not_false_eq_true, and_true]
    split <;> simp [covers_cons, covers_nil]
    omega
  | cons b l ih =>
    obtain ⟨hb, hbl, hl⟩ := canonical_cons.1 hl
    have hv : Covers l v → b.hi + 1 < v := lt_of_covers hbl
    have ih : ∀ {n}, Covers (gaps n hi l) v ↔ n ≤ v ∧ v ≤ hi ∧ ¬ Covers l v := ih hl
    simp only [gaps, covers_cons]
    by_cases hc : Covers l v
    · have := hv hc
      simp only [hc, or_true, not_true_eq_false, and_false, iff_false]
      split
      · simp [ih, hc]
      · split
        · split <;> simp [covers_cons, covers_nil]
          omega
        · split <;> simp [covers_cons, ih, hc]
          omega
    · simp only [hc, or_false]
      split
      · simp only [ih, hc, not_false_eq_true, and_true]; omega
      · split
        · split <;> simp [covers_cons, covers_nil] <;> omega
        · split <;> simp [covers_cons, ih, hc] <;> omega

section first

variable {a b : Span} {l m : List Span} (hl : Canonical (a :: l)) (hm : Canonical (b :: m))
  (h : ∀ v, Covers (a :: l) v → Covers (b :: m) v)
include hl hm h

theorem lo_le_of_covers : b.lo ≤ a.lo := by
  obtain ⟨ha, -, -⟩ := canonical_cons.1 hl
  obtain ⟨hb, hbm, -⟩ := canonical_cons.1 hm
  obtain hin | hin := covers_cons.1 (h a.lo (covers_cons.2 (.inl ⟨Int.le_refl _, ha⟩)))
  · exact hin.1
  · have := lt_of_covers hbm hin
    omega

theorem hi_le_of_covers (hlo : a.lo = b.lo) : a.hi ≤ b.hi := by
  obtain ⟨ha, -, -⟩ := canonical_cons.1 hl
  obtain ⟨hb, hbm, -⟩ := canonical_cons.1 hm
  -- between two spans of a canonical list there is a gap
  refine Int.not_lt.1 fun hlt => ?_
  obtain hin | hin := covers_cons.1 (h (b.hi + 1) (covers_cons.2 (.inl ⟨by omega, by omega⟩)))
  · omega
  · have := lt_of_covers hbm hin
    omega

omit hm in
theorem covers_tail (heq : a = b) {v : Int} (hv : Covers l v) : Covers m v := by
  obtain ⟨ha, hal, -⟩ := canonical_cons.1 hl
  obtain hin | hin := covers_cons.1 (h v (covers_cons.2 (.inr hv)))
  · have := lt_of_covers hal hv
    rw [heq] at this
    omega
  · exact hin

end first

theorem eq_of_covers {l m : List Span} (hl : Canonical l) (hm : Canonical m)
    (h : ∀ v, Covers l v ↔ Covers m v) : l = m := by
  induction l generalizing m with
  | nil =>
    cases m with
    | nil => rfl
    | cons b m =>
      obtain ⟨hb, -, -⟩ := canonical_cons.1 hm
      exact absurd ((h b.lo).2 (covers_cons.2 (.inl ⟨Int.le_refl _, hb⟩))) (covers_nil _)
  | cons a l ih =>
    cases m with
    | nil =>
      obtain ⟨ha, -, -⟩ := canonical_cons.1 hl
      exact absurd ((h a.lo).1 (covers_cons.2 (.inl ⟨Int.le_refl _, ha⟩))) (covers_nil _)
    | cons b m =>
      have there v := (h v).1
      have back v := (h v).2
      have hlo : a.lo = b.lo :=
        Int.le_antisymm (lo_le_of_covers hm hl back) (lo_le_of_covers hl hm there)
      have hhi : a.hi = b.hi :=
        Int.le_antisymm (hi_le_of_covers hl hm there hlo) (hi_le_of_covers hm hl back hlo.symm)
      obtain rfl : a = b := by cases a; cases b; simp_all
      congr 1
      exact ih (canonical_cons.1 hl).2.2 (canonical_cons.1 hm).2.2 fun v =>
        ⟨covers_tail hl there rfl, covers_tail hm back rfl⟩

end Span

namespace SymbolSet

theorem mem_iff_covers {s : SymbolSet} {v : Int} : v ∈ s ↔ Span.Covers s.spans v := by
  show s.contains v = true ↔ _
  simp [contains, Span.contains, Span.Covers]

@[ext] theorem ext {s t : SymbolSet} (h : ∀ v, v ∈ s ↔ v ∈ t) : s = t := by
  have := Span.eq_of_covers s.canonical t.canonical fun v => by
    rw [← mem_iff_covers, ← mem_iff_covers]; exact h v
  cases s; cases t; simp_all

@[simp] theorem not_mem_empty (v : Int) : v ∉ (∅ : SymbolSet) :=
  fun h => Span.covers_nil v (mem_iff_covers.1 h)

@[simp] theorem mem_insertSpan {s : SymbolSet} {lo hi v : Int} :
    v ∈ s.insertSpan lo hi ↔ (lo ≤ v ∧ v ≤ hi) ∨ v ∈ s := by
  unfold insertSpan
  split
  · rename_i h
    rw [mem_iff_covers, mem_iff_covers]
    exact Span.covers_insertInto h s.canonical
  · constructor
    · exact .inr
    · rintro (h | h)
      · omega
      · exact h

@[simp] theorem mem_insert {s : SymbolSet} {v w : Int} : w ∈ s.insert v ↔ w = v ∨ w ∈ s := by
  rw [insert, mem_insertSpan]
  refine or_congr_left ?_
  omega

@[simp] theorem mem_ofSpan {lo hi v : Int} : v ∈ ofSpan lo hi ↔ lo ≤ v ∧ v ≤ hi := by
  simp [ofSpan]

@[simp] theorem mem_singleton {v w : Int} : w ∈ singleton v ↔ w = v := by
  simp [singleton]

theorem mem_foldl_insertSpan {l : List Span} {s : SymbolSet} {v : Int} :
    v ∈ l.foldl (fun s a => s.insertSpan a.lo a.hi) s ↔ v ∈ s ∨ Span.Covers l v := by
  induction l generalizing s with
  | nil => simp [Span.covers_nil]
  | cons a l ih =>
    rw [List.foldl_cons, ih, mem_insertSpan, Span.covers_cons, or_assoc, or_left_comm]

@[simp] theorem mem_union {s t : SymbolSet} {v : Int} : v ∈ s ∪ t ↔ v ∈ s ∨ v ∈ t := by
  rw [mem_iff_covers (s := t)]
  exact mem_foldl_insertSpan

@[simp] theorem mem_erase {s : SymbolSet} {v w : Int} : w ∈ s.erase v ↔ w ∈ s ∧ w ≠ v := by
  rw [mem_iff_covers, mem_iff_covers]
  exact Span.covers_eraseFrom s.canonical

@[simp] theorem mem_complement {s : SymbolSet} {lo hi v : Int} :
    v ∈ s.complement lo hi ↔ lo ≤ v ∧ v ≤ hi ∧ v ∉ s := by
  rw [mem_iff_covers, mem_iff_covers]
  exact Span.covers_gaps s.canonical

end SymbolSet

end GrammarWalk
