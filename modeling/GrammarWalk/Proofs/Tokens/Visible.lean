import GrammarWalk.Proofs.Tokens
import Mathlib.Data.List.Basic
import Mathlib.Order.Monotone.Basic

/-! A list of tokens and the list of those that a parser reads of it. A token to read has as its
place in the second list the number of tokens to read before it in the first. -/

namespace GrammarWalk

/-- The tokens on the default channel, and the end of input at the end of a list whatever its
channel. -/
def Token.visible (l : List Token) : List Token :=
  match l.getLast? with
  | some t => if t.isEnd then l.dropLast.filter isRead ++ [t] else l.filter isRead
  | none => []

namespace Tokens

/-- The number of tokens to read before a place. -/
def rank (ts : Tokens) (i : Nat) : Nat := ((List.range i).filter fun j => (ts.get j).isRead).length

variable {ts a b : Tokens} {i j : Nat} {t : Token}

theorem rank_succ (ts : Tokens) (i : Nat) :
    ts.rank (i + 1) = if (ts.get i).isRead then ts.rank i + 1 else ts.rank i := by
  rw [rank, List.range_succ, List.filter_append, List.length_append]
  cases h : (ts.get i).isRead <;> simp [h, rank]

theorem rank_mono (ts : Tokens) : Monotone ts.rank := by
  refine monotone_nat_of_le_succ fun i => ?_
  rw [rank_succ]
  split
  · exact Nat.le_succ _
  · exact le_rfl

theorem rank_lt (hread : (ts.get i).isRead = true) (hij : i < j) : ts.rank i < ts.rank j := by
  have hsucc : ts.rank (i + 1) = ts.rank i + 1 := by rw [rank_succ, if_pos hread]
  have hle : ts.rank (i + 1) ≤ ts.rank j := ts.rank_mono hij
  omega

theorem rank_nextRead (hi : i ≤ ts.body.size) : ts.rank (ts.nextRead i) = ts.rank i :=
  congrArg List.length (filter_range_nextRead hi)

/-- The tokens to read, but for the last token. -/
def readable (ts : Tokens) : List Token := ts.body.toList.filter Token.isRead

theorem get_of_body (h : ts.body[i]? = some t) : ts.get i = t := by rw [get, h, Option.getD_some]

theorem get_lastIndex (ts : Tokens) : ts.get ts.lastIndex = ts.last := by simp [get, lastIndex]

theorem rank_eq (hi : i ≤ ts.body.size) :
    ts.rank i = ((ts.body.toList.take i).filter Token.isRead).length := by
  induction i with
  | zero => rfl
  | succ i ih =>
    obtain ⟨t, ht⟩ : ∃ t, ts.body[i]? = some t := ⟨_, Array.getElem?_eq_getElem hi⟩
    have hlist : ts.body.toList[i]? = some t := by rw [Array.getElem?_toList, ht]
    rw [rank_succ, get_of_body ht, ih (by omega), List.take_add_one, hlist, List.filter_append,
      List.length_append]
    cases h : t.isRead <;> simp [h]

theorem readable_rank (ht : ts.body[i]? = some t) (hread : t.isRead = true) :
    ts.readable[ts.rank i]? = some t := by
  obtain ⟨hlt, -⟩ := Array.getElem?_eq_some_iff.1 ht
  have hlist : ts.body.toList[i]? = some t := by rw [Array.getElem?_toList, ht]
  have hsplit : ts.readable = (ts.body.toList.take i).filter Token.isRead ++
      t :: (ts.body.toList.drop (i + 1)).filter Token.isRead :=
    calc ts.readable
      _ = (ts.body.toList.take i ++ ts.body.toList.drop i).filter Token.isRead := by
        rw [List.take_append_drop]
        rfl
      _ = (ts.body.toList.take i ++ t :: ts.body.toList.drop (i + 1)).filter Token.isRead := by
        obtain ⟨h, rfl⟩ := List.getElem?_eq_some_iff.1 hlist
        rw [List.drop_eq_getElem_cons h]
      _ = _ := by rw [List.filter_append, List.filter_cons_of_pos hread]
  rw [rank_eq (Nat.le_of_lt hlt), hsplit, List.getElem?_append_right le_rfl, Nat.sub_self,
    List.getElem?_cons_zero]

theorem rank_lastIndex (ts : Tokens) : ts.rank ts.lastIndex = ts.readable.length := by
  have hbody : ts.rank ts.lastIndex = _ := rank_eq le_rfl
  rw [hbody, lastIndex, ← Array.length_toList, List.take_length]
  rfl

theorem nextRead_of_isRead (h : ts.IsRead i) : ts.nextRead i = i := by
  obtain rfl | ⟨t, ht, hread⟩ := h
  · have hend : ts.body.toList.drop ts.lastIndex = [] := by simp [lastIndex]
    rw [nextRead, hend]
    rfl
  · obtain ⟨hlt, -⟩ := Array.getElem?_eq_some_iff.1 ht
    have hle : i ≤ ts.nextRead i := le_nextRead (Nat.le_of_lt hlt)
    refine le_antisymm (Nat.le_of_not_lt fun hlt => ?_) hle
    have hnot := isRead_of_lt_nextRead le_rfl hlt
    rw [get_of_body ht, hread] at hnot
    cases hnot

theorem isRead_le (h : ts.IsRead i) : i ≤ ts.lastIndex := by
  obtain rfl | ⟨t, ht, -⟩ := h
  · exact le_rfl
  · exact Nat.le_of_lt (Array.getElem?_eq_some_iff.1 ht).1

theorem isRead_get (h : ts.IsRead i) (hi : i < ts.lastIndex) : (ts.get i).isRead = true := by
  obtain rfl | ⟨t, ht, hread⟩ := h
  · exact absurd hi (lt_irrefl _)
  · rwa [get_of_body ht]

theorem exists_rank {k : Nat} :
    ∀ {n : Nat}, k < ts.rank n → ∃ i < n, (ts.get i).isRead = true ∧ ts.rank i = k := by
  intro n
  induction n with
  | zero => exact fun hk => absurd hk (Nat.not_lt_zero k)
  | succ n ih =>
    intro hk
    rw [rank_succ] at hk
    split at hk
    · rename_i hread
      obtain heq | hlt := Nat.eq_or_lt_of_le (Nat.le_of_lt_succ hk)
      · exact ⟨n, Nat.lt_succ_self n, hread, heq.symm⟩
      · obtain ⟨i, hi, hread, hrank⟩ := ih hlt
        exact ⟨i, Nat.lt_succ_of_lt hi, hread, hrank⟩
    · obtain ⟨i, hi, hread, hrank⟩ := ih hk
      exact ⟨i, Nat.lt_succ_of_lt hi, hread, hrank⟩

theorem isRead_of_get (hi : i < ts.lastIndex) (hread : (ts.get i).isRead = true) : ts.IsRead i := by
  obtain ⟨t, ht⟩ : ∃ t, ts.body[i]? = some t := ⟨_, Array.getElem?_eq_getElem hi⟩
  exact .inr ⟨t, ht, get_of_body ht ▸ hread⟩

theorem rank_inj (hi : ts.IsRead i) (hj : ts.IsRead j) : ts.rank i = ts.rank j ↔ i = j := by
  refine ⟨fun heq => ?_, fun h => h ▸ rfl⟩
  have hle := isRead_le hi
  have hle' := isRead_le hj
  obtain hlt | h | hlt := lt_trichotomy i j
  · exact absurd heq (rank_lt (isRead_get hi (by omega)) hlt).ne
  · exact h
  · exact absurd heq.symm (rank_lt (isRead_get hj (by omega)) hlt).ne

def lastRead (ts : Tokens) (i : Nat) : Option Nat :=
  (List.range i).reverse.find? fun j => (ts.get j).isRead

theorem lastRead_succ (ts : Tokens) (i : Nat) :
    ts.lastRead (i + 1) = if (ts.get i).isRead then some i else ts.lastRead i := by
  rw [lastRead, List.range_succ, List.reverse_append, List.reverse_singleton, List.singleton_append,
    List.find?_cons]
  split <;> simp_all [lastRead]

/-- The tokens `b` are what a parser reads of the tokens `a`. Their last token may be one that `a`
has to read before its own last one: both are ends of input. -/
structure Shows (a b : Tokens) : Prop where
  last : a.last.type = Symbol.eof
  ends : b.last.type = Symbol.eof
  body : b.body.toList = a.readable ∨ a.readable = b.body.toList ++ [b.last]

theorem isEnd_iff : t.isEnd = true ↔ t.type = Symbol.eof := by simp [Token.isEnd]

section shows

variable (h : a.Shows b)

include h

theorem Shows.get (k : Nat) : b.get k = a.readable[k]?.getD b.last := by
  rw [Tokens.get, ← Array.getElem?_toList]
  obtain heq | heq := h.body
  · rw [heq]
  · rw [heq, List.getElem?_append]
    split
    · rfl
    · rename_i hk
      rw [List.getElem?_eq_none (Nat.le_of_not_lt hk), List.getElem?_singleton]
      split <;> rfl

theorem Shows.get_rank (ht : a.body[i]? = some t) (hread : t.isRead = true) :
    b.get (a.rank i) = t := by
  rw [h.get, readable_rank ht hread, Option.getD_some]

theorem Shows.type_rank (hi : a.IsRead i) : (b.get (a.rank i)).type = (a.get i).type := by
  obtain rfl | ⟨t, ht, hread⟩ := hi
  · rw [h.get, rank_lastIndex, List.getElem?_eq_none le_rfl, Option.getD_none, get_lastIndex,
      h.last, h.ends]
  · rw [h.get_rank ht hread, get_of_body ht]

theorem Shows.isEnd_rank (hi : a.IsRead i) : (b.get (a.rank i)).isEnd = (a.get i).isEnd := by
  rw [Token.isEnd, Token.isEnd, h.type_rank hi]

theorem Shows.lt_lastIndex (hi : a.IsRead i) (hend : (a.get i).isEnd = false) :
    i < a.lastIndex ∧ a.rank i < b.lastIndex := by
  have hnot : (a.get i).type ≠ Symbol.eof := fun htype => by simp [isEnd_iff.2 htype] at hend
  have hlt : i < a.lastIndex := by
    refine lt_of_le_of_ne (isRead_le hi) fun heq => ?_
    rw [heq, get_lastIndex] at hnot
    exact hnot h.last
  have hrank : a.rank i < a.readable.length := by
    rw [← rank_lastIndex]
    exact rank_lt (isRead_get hi hlt) hlt
  refine ⟨hlt, ?_⟩
  rw [lastIndex, ← Array.length_toList]
  obtain heq | heq := h.body
  · rwa [heq]
  · -- the last token of `b` is an end of input, so the token at hand stands before it
    rw [heq, List.length_append, List.length_singleton] at hrank
    refine lt_of_le_of_ne (Nat.le_of_lt_succ hrank) fun hlen => ?_
    rw [← h.type_rank hi, h.get, heq, hlen, List.getElem?_append_right le_rfl, Nat.sub_self] at hnot
    exact hnot h.ends

theorem Shows.isRead (k : Nat) (hk : k ≤ b.lastIndex) : b.IsRead k := by
  obtain heq | hlt := Nat.eq_or_lt_of_le hk
  · exact .inl heq
  · obtain ⟨t, ht⟩ : ∃ t, b.body[k]? = some t := ⟨_, Array.getElem?_eq_getElem hlt⟩
    refine .inr ⟨t, ht, ?_⟩
    have hmem : t ∈ b.body.toList := List.mem_of_getElem? (by rw [Array.getElem?_toList, ht])
    have hreadable : t ∈ a.readable := by
      obtain heq | heq := h.body
      · rwa [← heq]
      · rw [heq]
        exact List.mem_append_left _ hmem
    exact (List.mem_filter.1 hreadable).2

theorem Shows.nextRead_rank (hi : a.IsRead i) (hend : (a.get i).isEnd = false) :
    a.rank (a.nextRead (i + 1)) = b.nextRead (a.rank i + 1) := by
  obtain ⟨hlt, hlt'⟩ := h.lt_lastIndex hi hend
  rw [rank_nextRead hlt, rank_succ, if_pos (isRead_get hi hlt),
    nextRead_of_isRead (h.isRead _ hlt')]

theorem Shows.isRead_get (k : Nat) (hk : k < a.readable.length) : (b.get k).isRead = true := by
  rw [h.get, List.getElem?_eq_getElem hk, Option.getD_some]
  exact (List.mem_filter.1 (List.getElem_mem hk)).2

theorem Shows.lastRead_rank (hi : i ≤ a.lastIndex) :
    b.lastRead (a.rank i) = (a.lastRead i).map a.rank := by
  induction i with
  | zero => rfl
  | succ i ih =>
    rw [lastRead_succ, rank_succ]
    cases hread : (a.get i).isRead with
    | false => exact ih (Nat.le_of_succ_le hi)
    | true =>
      have hlt : a.rank i < a.readable.length := by
        rw [← rank_lastIndex]
        exact rank_lt hread hi
      rw [if_pos rfl, lastRead_succ, h.isRead_get _ hlt]
      rfl

theorem Shows.exists_rank (k : Nat) (hk : k ≤ b.lastIndex) : ∃ i, a.IsRead i ∧ a.rank i = k := by
  obtain hlt | hle := lt_or_ge k (a.rank a.lastIndex)
  · obtain ⟨i, hi, hread, hrank⟩ := Tokens.exists_rank hlt
    exact ⟨i, isRead_of_get hi hread, hrank⟩
  · refine ⟨a.lastIndex, .inl rfl, le_antisymm hle (hk.trans ?_)⟩
    rw [rank_lastIndex, lastIndex, ← Array.length_toList]
    obtain heq | heq := h.body
    · rw [heq]
    · simp [heq]

end shows

theorem ofList_of_end {l : List Token} (hl : l.getLast? = some t) (ht : t.isEnd = true) :
    (ofList l).body.toList = l.dropLast ∧ (ofList l).last = t := by
  simp [ofList, hl, ht]

theorem ofList_of_not_end {l : List Token} (hl : ∀ t, l.getLast? = some t → t.isEnd = false) :
    (ofList l).body.toList = l := by
  unfold ofList
  cases h : l.getLast? with
  | none => simp [List.getLast?_eq_none_iff.1 h]
  | some t => simp [hl t h]

theorem shows_visible (l : List Token) : (ofList l).Shows (ofList (Token.visible l)) := by
  refine ⟨(ready_ofList l).last, (ready_ofList _).last, ?_⟩
  by_cases hend : ∃ t, l.getLast? = some t ∧ t.isEnd = true
  · obtain ⟨t, hl, ht⟩ := hend
    have hvisible : Token.visible l = l.dropLast.filter Token.isRead ++ [t] := by
      simp [Token.visible, hl, ht]
    obtain ⟨hbody, -⟩ := ofList_of_end (l := Token.visible l) (t := t) (by simp [hvisible]) ht
    rw [hbody, readable, (ofList_of_end hl ht).1, hvisible, List.dropLast_concat]
    exact .inl rfl
  · have hnot (t : Token) (hl : l.getLast? = some t) : t.isEnd = false := by
      simpa using fun ht => hend ⟨t, hl, ht⟩
    have hvisible : Token.visible l = l.filter Token.isRead := by
      unfold Token.visible
      cases hl : l.getLast? with
      | none => simp [List.getLast?_eq_none_iff.1 hl]
      | some t => simp [hnot t hl]
    rw [readable, ofList_of_not_end hnot, ← hvisible]
    -- an end of input may be the last of the tokens to read, and not the last of all
    by_cases hend : ∃ t, (Token.visible l).getLast? = some t ∧ t.isEnd = true
    · obtain ⟨t, hl, ht⟩ := hend
      obtain ⟨hbody, hlast⟩ := ofList_of_end hl ht
      rw [hbody, hlast]
      exact .inr (List.dropLast_append_getLast? t hl).symm
    · refine .inl (ofList_of_not_end fun t hl => ?_)
      simpa using fun ht => hend ⟨t, hl, ht⟩

theorem position_ofList (l : List Token) :
    (ofList (Token.visible l)).position = (ofList l).rank (ofList l).position := by
  have hfirst : (ofList l).rank (ofList l).position = 0 := rank_nextRead (Nat.zero_le _)
  have hread : (ofList (Token.visible l)).IsRead 0 := (shows_visible l).isRead 0 (Nat.zero_le _)
  rw [hfirst]
  exact nextRead_of_isRead hread

end Tokens

end GrammarWalk
