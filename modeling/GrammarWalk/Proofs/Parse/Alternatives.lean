import GrammarWalk.Proofs.Parse.Choice
import GrammarWalk.Proofs.Parse.Course

/-! The alternatives of a decision against the runs of the network: an alternative is viable if
behind its edge the rest of the input leads through all the rules that the parse is inside of. -/

namespace GrammarWalk.Choice

open Relation Network

variable {s : Setting} {root decision i : Nat} {cost : Call → Nat} {st : State} {e : Edge}
  {w : List Int}

theorem outside_eq {l : List Nat} : ∀ {rest : List Nat}, s.follow.toList = l.reverse ++ rest →
    s.outside l.length = l.map (Leg.mk maxCalls) := by
  induction l with
  | nil => exact fun _ => rfl
  | cons q l ih =>
    intro rest h
    rw [List.reverse_cons, List.append_assoc] at h
    have hlast : s.follow[l.length]? = some q := by
      rw [← Array.getElem?_toList, h, ← List.length_reverse,
        List.getElem?_append_right (Nat.le_refl _), Nat.sub_self]
      rfl
    rw [List.length_cons, Setting.outside, Array.getD_eq_getD_getElem?, hlast, ih h]
    rfl

/-- An edge that takes no input and calls nothing leads to its target, unless the level is too
low. -/
theorem along_of_silent {t : Trail} (hsilent : e.isSilent = true) (hcall : e.call? = none)
    (hlevel : ∀ target level, e = .precedence target level → s.precedence ≤ level) :
    t.along s.precedence e = some { t with state := e.target, only := none } := by
  cases e with
  | precedence target level =>
    have hlevel := hlevel target level rfl
    refine if_neg ?_
    simp [Int.not_lt.2 hlevel]
  | epsilon | predicate | action => rfl
  | call => cases hcall
  | atom | range | set | notSet | wildcard => cases hsilent

theorem viable_origin_iff (hst : s.net.states[decision]? = some st) (hns : st.isRuleStop = false)
    (hsilent : ∀ e ∈ st.edges, e.isSilent = true) (he : st.edges[i]? = some e)
    (hcall : e.call? = none)
    (hlevel : ∀ target level, e = .precedence target level → s.precedence ≤ level) :
    Viable s w (origin s decision i) ↔
      Viable s w { origin s decision i with state := e.target, only := none } := by
  have halong := along_of_silent (s := s) (t := origin s decision i)
    (hsilent e (List.mem_of_getElem? he)) hcall hlevel
  have hmove (t : Trail) : Moves s (origin s decision i) t ↔
      t = { origin s decision i with state := e.target, only := none } := by
    refine (moves_iff_along hst hns).trans ⟨?_, ?_⟩
    · rintro ⟨e', he', ht⟩
      obtain rfl : e = e' := Option.some.inj (he.symm.trans he')
      exact (Option.some.inj (halong.symm.trans ht)).symm
    · rintro rfl
      exact ⟨e, he, halong⟩
  constructor
  · rintro ⟨x, hx, hfits⟩
    obtain rfl | ⟨y, hy, hyx⟩ := hx.cases_head
    · -- the decision itself takes no input
      cases only_of_reaches_origin hst hns hsilent .refl hfits.waits
    · obtain rfl := (hmove y).1 hy
      exact ⟨x, hyx, hfits⟩
  · rintro ⟨x, hx, hfits⟩
    exact ⟨x, .head ((hmove _).2 rfl) hx, hfits⟩

/-- An alternative can take all the symbols if and only if these, perhaps with the end of input
behind them, lead from the target of its edge through the rules that the parse is inside of. -/
theorem viable_origin_iff_chained (hr : s.net.Regular root cost) (hprecedence : s.precedence ≤ 0)
    (hst : s.net.states[decision]? = some st) (hns : st.isRuleStop = false)
    (hsilent : ∀ e ∈ st.edges, e.isSilent = true) (he : st.edges[i]? = some e)
    (hcall : e.call? = none)
    (hlevel : ∀ target level, e = .precedence target level → s.precedence ≤ level)
    (hl : s.net.RootLast root (⟨maxCalls, e.target⟩ :: s.outside s.follow.size)) :
    Viable s w (origin s decision i) ↔
      s.net.Chained State.followed cost (⟨maxCalls, e.target⟩ :: s.outside s.follow.size) w ∨
      s.net.Chained State.followed cost (⟨maxCalls, e.target⟩ :: s.outside s.follow.size)
      (w ++ [Symbol.eof]) := by
  rw [viable_origin_iff hst hns hsilent he hcall hlevel]
  exact viable_iff_chained hr hprecedence rfl rfl (Nat.le_refl _) hl

end GrammarWalk.Choice
