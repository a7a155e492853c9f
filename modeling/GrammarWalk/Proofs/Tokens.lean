import GrammarWalk.Token
import Mathlib.Data.List.TakeWhile
import Mathlib.Logic.Function.Iterate

/-! What a parser reads of a list of tokens: the types on the default channel, up to the first end
of input. -/

namespace GrammarWalk.Tokens

variable (ts : Tokens) (i : Nat)

/-- The types of the tokens to read from place `i` on, up to the first end of input. -/
def typesFrom : List Int :=
  (((ts.body.toList.drop i).filter Token.isRead).map (·.type)).takeWhile (· ≠ Symbol.eof)

def IsRead : Prop := i = ts.lastIndex ∨ ∃ t, ts.body[i]? = some t ∧ t.isRead = true

/-- Tokens as a parser has them: the last is an end of input, and the cursor is where there is a
token to read. -/
structure Ready (ts : Tokens) : Prop where
  last : ts.last.type = Symbol.eof
  position : ts.IsRead ts.position

theorem length_typesFrom_le : (ts.typesFrom i).length ≤ ts.body.size :=
  calc (ts.typesFrom i).length
    _ ≤ (((ts.body.toList.drop i).filter Token.isRead).map (·.type)).length :=
      (List.takeWhile_sublist _).length_le
    _ = ((ts.body.toList.drop i).filter Token.isRead).length := List.length_map _
    _ ≤ (ts.body.toList.drop i).length := List.length_filter_le _ _
    _ ≤ ts.body.size := by simp

theorem eof_notMem_typesFrom : Symbol.eof ∉ ts.typesFrom i := fun h => by
  simpa using List.mem_takeWhile_imp h

theorem nextRead_spec :
    ts.IsRead (ts.nextRead i) ∧ ts.typesFrom (ts.nextRead i) = ts.typesFrom i := by
  unfold nextRead
  cases hk : (ts.body.toList.drop i).findIdx? Token.isRead with
  | none =>
    refine ⟨.inl rfl, ?_⟩
    have hnone := List.findIdx?_eq_none_iff.1 hk
    have hlast : ts.body.toList.drop ts.lastIndex = [] := by simp [lastIndex]
    have hfilter : (ts.body.toList.drop i).filter Token.isRead = [] := by
      rw [List.filter_eq_nil_iff]
      exact fun t ht => by simp [hnone t ht]
    simp only [typesFrom, Option.elim, hlast, hfilter, List.filter_nil]
  | some k =>
    obtain ⟨hlt, hread, hskip⟩ := List.findIdx?_eq_some_iff_getElem.1 hk
    have hfilter : ((ts.body.toList.drop i).take k).filter Token.isRead = [] := by
      rw [List.filter_eq_nil_iff]
      intro t ht
      obtain ⟨j, hj, rfl⟩ := List.mem_iff_getElem.1 ht
      rw [List.length_take] at hj
      simpa using hskip j (by omega)
    constructor
    · refine .inr ⟨(ts.body.toList.drop i)[k], ?_, hread⟩
      rw [← Array.getElem?_toList, Option.elim, List.getElem_drop, List.getElem?_eq_getElem]
    · have hrest : (ts.body.toList.drop i).filter Token.isRead =
          (ts.body.toList.drop (i + k)).filter Token.isRead :=
        calc (ts.body.toList.drop i).filter Token.isRead
          _ = ((ts.body.toList.drop i).take k ++
              (ts.body.toList.drop i).drop k).filter Token.isRead := by
            rw [List.take_append_drop]
          _ = (ts.body.toList.drop (i + k)).filter Token.isRead := by
            rw [List.filter_append, hfilter, List.nil_append, List.drop_drop]
      simp only [typesFrom, Option.elim, hrest]

variable {ts i}

/-- The types ahead begin with the type of the token read, unless it is an end of input. -/
theorem typesFrom_eq (hlast : ts.last.type = Symbol.eof) (hi : ts.IsRead i) : ts.typesFrom i =
    if (ts.get i).type = Symbol.eof then [] else (ts.get i).type :: ts.typesFrom (i + 1) := by
  rcases hi with rfl | ⟨t, ht, hread⟩
  · have hnone : ts.body.toList.drop ts.lastIndex = [] := by simp [lastIndex]
    have hget : ts.get ts.lastIndex = ts.last := by simp [get, lastIndex]
    rw [typesFrom, hnone, hget, if_pos hlast]
    rfl
  · obtain ⟨hlt, hget⟩ := Array.getElem?_eq_some_iff.1 ht
    have hdrop : ts.body.toList.drop i = t :: ts.body.toList.drop (i + 1) := by
      rw [List.drop_eq_getElem_cons (by simpa using hlt), Array.getElem_toList, hget]
    have htype : (ts.get i).type = t.type := by rw [get, ht, Option.getD_some]
    rw [htype, typesFrom, hdrop, List.filter_cons_of_pos hread, List.map_cons, List.takeWhile_cons]
    split <;> simp_all [typesFrom]

theorem ready_ofList (l : List Token) : (ofList l).Ready := by
  refine ⟨?_, (nextRead_spec _ _).1⟩
  unfold ofList
  cases hl : l.getLast? with
  | none => rfl
  | some t =>
    cases ht : t.isEnd with
    | true =>
      have htype : t.type = Symbol.eof := by simpa [Token.isEnd] using ht
      simpa [ht] using htype
    | false => simp [ht, Token.endOfInput]

theorem Ready.advance (h : ts.Ready) : ts.advance.Ready := by
  unfold Tokens.advance
  split
  · exact h
  · exact ⟨h.last, (nextRead_spec _ _).1⟩

theorem Ready.iterate (h : ts.Ready) (n : Nat) : (Tokens.advance^[n] ts).Ready := by
  induction n with
  | zero => exact h
  | succ n ih =>
    rw [Function.iterate_succ_apply']
    exact ih.advance

theorem ready_advance (l : List Token) (n : Nat) : (Tokens.advance^[n] (ofList l)).Ready :=
  (ready_ofList l).iterate n

theorem isRead_of_lt_nextRead {j : Nat} (hij : i ≤ j) (hj : j < ts.nextRead i) :
    (ts.get j).isRead = false := by
  have found (hlt : j < ts.body.size) (hread : (ts.get j).isRead = true) :
      ∃ h : j - i < (ts.body.toList.drop i).length,
          (ts.body.toList.drop i)[j - i].isRead = true := by
    refine ⟨by simp only [List.length_drop, Array.length_toList]; omega, ?_⟩
    rw [get, Array.getElem?_eq_getElem hlt, Option.getD_some] at hread
    simpa [Nat.add_sub_cancel' hij] using hread
  unfold nextRead at hj
  cases hk : (ts.body.toList.drop i).findIdx? Token.isRead with
  | none =>
    rw [hk] at hj
    refine Bool.eq_false_iff.2 fun hread => ?_
    obtain ⟨hlt, hread⟩ := found hj hread
    rw [List.findIdx?_eq_none_iff.1 hk _ (List.getElem_mem hlt)] at hread
    cases hread
  | some k =>
    rw [hk] at hj
    obtain ⟨hlt, -, hskip⟩ := List.findIdx?_eq_some_iff_getElem.1 hk
    simp only [Option.elim, List.length_drop, Array.length_toList] at hj hlt
    refine Bool.eq_false_iff.2 fun hread => ?_
    obtain ⟨_, hread⟩ := found (by omega) hread
    exact hskip (j - i) (by omega) hread

theorem le_nextRead (hi : i ≤ ts.body.size) : i ≤ ts.nextRead i := by
  unfold nextRead
  cases (ts.body.toList.drop i).findIdx? Token.isRead with
  | none => exact hi
  | some k => exact Nat.le_add_right i k

theorem Ready.reads (h : ts.Ready) (hend : ¬ts.current.isEnd) :
    ∃ t, ts.body[ts.position]? = some t ∧ t.isRead = true := by
  refine h.position.resolve_left fun hlast => hend ?_
  have hcurrent : ts.current = ts.last := by simp [current, get, hlast, lastIndex]
  rw [hcurrent, Token.isEnd, h.last]
  rfl

theorem Ready.lt_advance (h : ts.Ready) (hend : ¬ts.current.isEnd) :
    ts.position < ts.advance.position := by
  obtain ⟨t, ht, -⟩ := h.reads hend
  rw [Tokens.advance, if_neg hend]
  exact le_nextRead (Array.getElem?_eq_some_iff.1 ht).1

theorem Ready.le_advance (h : ts.Ready) : ts.position ≤ ts.advance.position := by
  by_cases hend : ts.current.isEnd = true
  · rw [Tokens.advance, if_pos hend]
  · exact Nat.le_of_lt (h.lt_advance hend)

theorem Ready.le_iterate (h : ts.Ready) (n : Nat) :
    ts.position ≤ (Tokens.advance^[n] ts).position := by
  induction n with
  | zero => exact Nat.le_refl _
  | succ n ih =>
    rw [Function.iterate_succ_apply']
    exact Nat.le_trans ih (h.iterate n).le_advance

theorem get_advance : ts.advance.get = ts.get := by
  unfold advance
  split <;> rfl

/-- The tokens on the default channel before the cursor, in order. -/
def readBefore (ts : Tokens) : List Nat :=
  (List.range ts.position).filter fun i => (ts.get i).isRead

theorem filter_range_nextRead (hi : i ≤ ts.body.size) :
    (List.range (ts.nextRead i)).filter (fun j => (ts.get j).isRead) =
      (List.range i).filter fun j => (ts.get j).isRead := by
  obtain ⟨k, hk⟩ := Nat.exists_eq_add_of_le (le_nextRead hi)
  have hskipped : ((List.range k).map (i + ·)).filter (fun j => (ts.get j).isRead) = [] := by
    rw [List.filter_eq_nil_iff]
    intro j hj
    obtain ⟨m, hm, rfl⟩ := List.mem_map.1 hj
    rw [List.mem_range] at hm
    simp [isRead_of_lt_nextRead (Nat.le_add_right i m) (by omega : i + m < ts.nextRead i)]
  rw [hk, List.range_add, List.filter_append, hskipped, List.append_nil]

theorem readBefore_ofList (l : List Token) : (ofList l).readBefore = [] :=
  filter_range_nextRead (Nat.zero_le _)

theorem readBefore_advance (h : ts.Ready) :
    ts.advance.readBefore = if ts.current.isEnd then ts.readBefore else ts.readBefore ++
    [ts.position] := by
  unfold advance
  split
  · rfl
  · rename_i hend
    obtain ⟨t, ht, hread⟩ := h.reads hend
    have hlt := (Array.getElem?_eq_some_iff.1 ht).1
    have hget : ts.get ts.position = t := by rw [get, ht, Option.getD_some]
    show (List.range (ts.nextRead (ts.position + 1))).filter (fun j => (ts.get j).isRead) = _
    rw [filter_range_nextRead hlt, List.range_succ, List.filter_append,
      List.filter_cons_of_pos (by rwa [hget])]
    rfl

end GrammarWalk.Tokens
