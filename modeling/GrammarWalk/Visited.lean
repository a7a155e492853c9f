/-!
Sets of things seen in a search. The members are kept in buckets by a number, which for members that
are equal has to be the same; a search looks through one bucket only.
-/

namespace GrammarWalk

structure Visited (α : Type) where
  buckets : Array (List α) := #[]
deriving Repr, Inhabited

namespace Visited

variable {α : Type}

def bucket (v : Visited α) (n : Nat) : List α := v.buckets[n]?.getD []

def contains [BEq α] (v : Visited α) (n : Nat) (a : α) : Bool := (v.bucket n).contains a

def insert (v : Visited α) (n : Nat) (a : α) : Visited α :=
  if n < v.buckets.size then { buckets := v.buckets.modify n (a :: ·) }
  else { buckets := (v.buckets ++ Array.replicate (n - v.buckets.size) []).push [a] }

theorem bucket_insert (v : Visited α) (n m : Nat) (a : α) :
    (v.insert n a).bucket m = if n = m then a :: v.bucket m else v.bucket m := by
  unfold insert bucket
  split
  · rename_i h
    simp only [Array.getElem?_modify]
    split
    · rename_i hm
      subst hm
      simp [Array.getElem?_eq_getElem h]
    · rfl
  · rename_i h
    have hsize : (v.buckets ++ Array.replicate (n - v.buckets.size) []).size = n := by simp; omega
    rw [Array.getElem?_push, hsize]
    by_cases hm : n = m
    · subst hm
      rw [if_pos rfl, if_pos rfl, Array.getElem?_eq_none (Nat.not_lt.1 h)]
      rfl
    · rw [if_neg (fun h => hm h.symm), if_neg hm]
      by_cases hlt : m < v.buckets.size
      · rw [Array.getElem?_append_left hlt]
      · rw [Array.getElem?_append_right (Nat.not_lt.1 hlt),
          Array.getElem?_eq_none (Nat.not_lt.1 hlt), Array.getElem?_replicate]
        split <;> rfl

theorem contains_insert [BEq α] [LawfulBEq α] {v : Visited α} {n m : Nat} {a b : α} :
    (v.insert n a).contains m b = true ↔ (n = m ∧ b = a) ∨ v.contains m b = true := by
  unfold contains
  rw [bucket_insert]
  split <;> simp_all

end Visited

end GrammarWalk
