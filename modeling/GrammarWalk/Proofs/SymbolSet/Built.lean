import GrammarWalk.Proofs.SymbolSet.Words
import Mathlib.Data.Int.ConditionallyCompleteOrder
import Mathlib.Data.Int.Interval
import Mathlib.Data.Set.Card
import Mathlib.Order.Bounds.Basic

/-! Symbol sets as they are built up. However a set is built, its spans are in the one form there is
for its members, and what can be asked of it is answered as for the set of numbers that is built
alike. -/

namespace GrammarWalk

namespace Span

variable {l : List Span} {a : Span} {v : Int}

@[simp] theorem length_toList (a : Span) : a.toList.length = a.size := by simp [toList]

@[simp] theorem mem_toList : v ∈ a.toList ↔ a.lo ≤ v ∧ v ≤ a.hi := by
  simp only [toList, size, List.mem_map, List.mem_range]
  constructor
  · rintro ⟨i, hi, rfl⟩
    omega
  · rintro ⟨hlo, hhi⟩
    exact ⟨(v - a.lo).toNat, by omega, by omega⟩

theorem pairwise_toList (a : Span) : a.toList.Pairwise (· < ·) :=
  List.pairwise_map.2 (List.pairwise_lt_range.imp fun h => by omega)

theorem mem_flatMap_toList : v ∈ l.flatMap toList ↔ Covers l v := by
  simp [List.mem_flatMap, Covers]

theorem pairwise_flatMap_toList (hl : Canonical l) : (l.flatMap toList).Pairwise (· < ·) := by
  refine List.pairwise_flatMap.2 ⟨fun a _ => a.pairwise_toList,
    hl.2.imp fun {a b} hab x hx y hy => ?_⟩
  rw [mem_toList] at hx hy
  simp only [Before] at hab
  omega

theorem length_flatMap_toList : (l.flatMap toList).length = (l.map size).foldr (· + ·) 0 := by
  induction l with
  | nil => rfl
  | cons a l ih =>
    rw [List.flatMap_cons, List.length_append, length_toList, ih, List.map_cons, List.foldr_cons]

theorem first_eq_take (n : Nat) : first n l = (l.flatMap toList).take n := by
  induction l generalizing n with
  | nil => simp [first]
  | cons a l ih =>
    have hrest : n - min n a.size = n - a.toList.length := by
      rw [length_toList]
      omega
    rw [first, ih, List.flatMap_cons, List.take_append, hrest, toList, ← List.map_take,
      List.take_range]

theorem isLeast_lo (hl : Canonical (a :: l)) : IsLeast {v | Covers (a :: l) v} a.lo := by
  obtain ⟨ha, hal, -⟩ := canonical_cons.1 hl
  refine ⟨covers_cons.2 (.inl ⟨le_rfl, ha⟩), fun v hv => ?_⟩
  rcases covers_cons.1 hv with h | h
  · exact h.1
  · have := lt_of_covers hal h
    omega

theorem isGreatest_hi {l : List Span} (hl : Canonical (l ++ [a])) :
    IsGreatest {v | Covers (l ++ [a]) v} a.hi := by
  obtain ⟨-, -, hbefore⟩ := List.pairwise_append.1 hl.2
  have ha : a.lo ≤ a.hi := hl.1 a (by simp)
  refine ⟨⟨a, by simp, ha, le_rfl⟩, fun v ⟨b, hb, hv⟩ => ?_⟩
  rcases List.mem_append.1 hb with hb | hb
  · have := hbefore b hb a (by simp)
    simp only [Before] at this
    omega
  · exact List.mem_singleton.1 hb ▸ hv.2

end Span

namespace SymbolSet

variable {s t : SymbolSet} {v : Int}

theorem mem_toList : v ∈ s.toList ↔ v ∈ s := Span.mem_flatMap_toList.trans mem_iff_covers.symm

theorem pairwise_toList (s : SymbolSet) : s.toList.Pairwise (· < ·) :=
  Span.pairwise_flatMap_toList s.canonical

theorem first_eq_take (s : SymbolSet) (n : Nat) : s.first n = s.toList.take n :=
  Span.first_eq_take n

theorem size_eq_ncard (s : SymbolSet) : s.size = {v | v ∈ s}.ncard := by
  have hmembers : {v | v ∈ s} = (s.toList.toFinset : Set Int) := by
    ext v
    simp [mem_toList]
  rw [hmembers, Set.ncard_coe_finset,
    List.toFinset_card_of_nodup (s.pairwise_toList.imp fun h => h.ne)]
  exact Span.length_flatMap_toList.symm

theorem min?_eq_some : s.min? = some v ↔ IsLeast {v | v ∈ s} v := by
  have hmembers : {v | v ∈ s} = {v | Span.Covers s.spans v} := Set.ext fun v => mem_iff_covers
  rw [hmembers, min?]
  obtain ⟨_ | ⟨a, l⟩, hl⟩ := s
  · simp [Span.covers_nil, IsLeast]
  · have hleast := Span.isLeast_lo hl
    rw [List.head?_cons, Option.map_some, Option.some.injEq]
    exact ⟨fun h => h ▸ hleast, hleast.unique⟩

theorem max?_eq_some : s.max? = some v ↔ IsGreatest {v | v ∈ s} v := by
  have hmembers : {v | v ∈ s} = {v | Span.Covers s.spans v} := Set.ext fun v => mem_iff_covers
  rw [hmembers, max?]
  rcases List.eq_nil_or_concat s.spans with hl | ⟨l, a, hl⟩
  · simp [hl, Span.covers_nil, IsGreatest]
  · rw [List.concat_eq_append] at hl
    have hgreatest := Span.isGreatest_hi (hl ▸ s.canonical)
    rw [hl, List.getLast?_concat, Option.map_some, Option.some.injEq]
    exact ⟨fun h => h ▸ hgreatest, hgreatest.unique⟩

/-- A way to build a set, from the empty one, with arguments that are words. -/
inductive Recipe
  | empty
  | insert (r : Recipe) (v : Int32)
  | insertSpan (r : Recipe) (lo hi : Int32)
  | union (r other : Recipe)
  | erase (r : Recipe) (v : Int32)
  | complement (r : Recipe) (lo hi : Int32)
deriving DecidableEq, Repr

namespace Recipe

def build : Recipe → SymbolSet
  | empty => ∅
  | insert r v => r.build.insert v.toInt
  | insertSpan r lo hi => r.build.insertSpan lo.toInt hi.toInt
  | union r other => r.build ∪ other.build
  | erase r v => r.build.erase v.toInt
  | complement r lo hi => r.build.complement lo.toInt hi.toInt

/-- The numbers that are members. -/
def members : Recipe → Set Int
  | empty => ∅
  | insert r v => r.members ∪ {v.toInt}
  | insertSpan r lo hi => r.members ∪ Set.Icc lo.toInt hi.toInt
  | union r other => r.members ∪ other.members
  | erase r v => r.members \ {v.toInt}
  | complement r lo hi => Set.Icc lo.toInt hi.toInt \ r.members

/-- The set in words; nothing if some number on the way is too long for a word. -/
def words? : Recipe → Option (List WordSpan)
  | empty => some []
  | insert r v => r.words?.map (WordSpan.insertInto ⟨v, v⟩)
  | insertSpan r lo hi => r.words?.map (WordSpan.insertInto ⟨lo, hi⟩)
  | union r other => do
    return (← other.words?).foldl (fun l a => WordSpan.insertInto a l) (← r.words?)
  | erase r v => r.words?.bind (WordSpan.eraseFrom? v)
  | complement r lo hi => r.words?.bind (WordSpan.addGaps? hi lo.toInt [])

theorem mem_build {r : Recipe} {v : Int} : v ∈ r.build ↔ v ∈ r.members := by
  induction r generalizing v with
  | empty => simp [build, members]
  | insert r w ih => simp [build, members, ih]
  | insertSpan r lo hi ih => simp [build, members, ih, or_comm]
  | union r other ih ih' => simp [build, members, ih, ih']
  | erase r w ih => simp [build, members, ih]
  | complement r lo hi ih => simp [build, members, ih, and_assoc]

theorem members_eq (r : Recipe) : r.members = {v | v ∈ r.build} := Set.ext fun _ => mem_build.symm

theorem words?_stand (r : Recipe) : ∃ l, r.words? = some l ∧ WordSpan.Stand l r.build := by
  induction r with
  | empty => exact ⟨[], rfl, .nil⟩
  | insert r v ih =>
    obtain ⟨l, hl, hstand⟩ := ih
    exact ⟨_, by rw [words?, hl]; rfl, hstand.insertInto ⟨v, v⟩⟩
  | insertSpan r lo hi ih =>
    obtain ⟨l, hl, hstand⟩ := ih
    exact ⟨_, by rw [words?, hl]; rfl, hstand.insertInto ⟨lo, hi⟩⟩
  | union r other ih ih' =>
    obtain ⟨l, hl, hstand⟩ := ih
    obtain ⟨m, hm, hstand'⟩ := ih'
    exact ⟨_, by rw [words?, hl, hm]; rfl, hstand.union hstand'⟩
  | erase r v ih =>
    obtain ⟨l, hl, hstand⟩ := ih
    obtain ⟨l', hl', hstand'⟩ := hstand.eraseFrom? v
    exact ⟨l', by rw [words?, hl]; exact hl', hstand'⟩
  | complement r lo hi ih =>
    obtain ⟨l, hl, hstand⟩ := ih
    obtain ⟨l', hl', hstand'⟩ := hstand.complement lo hi
    exact ⟨l', by rw [words?, hl]; exact hl', hstand'⟩

/--
A set that is built is stored in words of which none is the result of arithmetic that left their
range. Its spans are in order, each with a member and a gap to the next; they are the same for sets
with the same members. Membership, size, bounds and listing are those of the set of numbers.
-/
theorem build_exact (r : Recipe) :
    (∃ l, r.words? = some l ∧ l.map WordSpan.span = r.build.spans ∧
      ∀ v, WordSpan.contains l v = true ↔ v.toInt ∈ r.members) ∧
    (∀ a ∈ r.build.spans, a.lo ≤ a.hi) ∧ r.build.spans.Pairwise (fun a b => a.hi + 1 < b.lo) ∧
    (∀ other : Recipe, (r.build.spans = other.build.spans ↔ r.members = other.members) ∧
      (r.words? = other.words? ↔ r.members = other.members)) ∧
    (∀ v, r.build.contains v = true ↔ v ∈ r.members) ∧ r.build.size = r.members.ncard ∧
    (∀ v, r.build.min? = some v ↔ IsLeast r.members v) ∧
    (∀ v, r.build.max? = some v ↔ IsGreatest r.members v) ∧
    r.build.toList.Pairwise (· < ·) ∧ (∀ v, v ∈ r.build.toList ↔ v ∈ r.members) ∧
    ∀ n, r.build.first n = r.build.toList.take n := by
  obtain ⟨l, hl, hstand⟩ := r.words?_stand
  have hsame (other : Recipe) : r.build.spans = other.build.spans ↔ r.members = other.members := by
    constructor
    · intro h
      ext v
      rw [← mem_build, ← mem_build, mem_iff_covers, mem_iff_covers, h]
    · intro h
      have hbuild : r.build = other.build := SymbolSet.ext fun v => by rw [mem_build, mem_build, h]
      rw [hbuild]
  have hwords (other : Recipe) : r.words? = other.words? ↔ r.build.spans = other.build.spans := by
    obtain ⟨m, hm, hstand'⟩ := other.words?_stand
    rw [hl, hm, Option.some.injEq, ← hstand, ← hstand',
      (List.map_injective_iff.2 WordSpan.span_injective).eq_iff]
  refine ⟨⟨l, hl, hstand, fun v => ?_⟩, r.build.canonical.1, r.build.canonical.2,
    fun other => ⟨hsame other, (hwords other).trans (hsame other)⟩, fun v => mem_build, ?_, fun v =>
    ?_, fun v => ?_,
    r.build.pairwise_toList, fun v => mem_toList.trans mem_build, r.build.first_eq_take⟩
  · rw [hstand.contains]
    exact mem_build
  · rw [members_eq, size_eq_ncard]
  · rw [members_eq, min?_eq_some]
  · rw [members_eq, max?_eq_some]

/-- The outermost words, and a hole next to one of them. -/
example : ((Recipe.empty.insertSpan .minValue .maxValue).erase .minValue).words? =
    some [⟨.minValue + 1, .maxValue⟩] := by decide

end Recipe

end SymbolSet

end GrammarWalk
