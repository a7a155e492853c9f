import GrammarWalk.Proofs.Load.Approaches
import GrammarWalk.Proofs.Parse.Choice

/-! A choice looks at the level of a precedence edge while it is in the decision's own invocation.
So it answers no alternative that leads to nothing but an edge of too low a level. -/

namespace GrammarWalk.Choice

variable {s : Setting} {t : Trail} {st : State} {f f' : Front} {trails : List Trail}
  {decision i x : Nat}
  {level : Int}

/-- The trail has not left the decision's own invocation, and can but go on to a precedence edge of
the level. -/
structure Trail.Approaches (net : Network) (level : Int) (t : Trail) : Prop where
  state : net.Approaches level t.state
  only : t.only = none
  stack : t.stack = []
  origin : t.leftOrigin = false

theorem close_of_single {fuel : Nat} {e : Edge} (hst : s.net.states[t.state]? = some st)
    (hns : st.isRuleStop = false)
    (honly : edgesOf st t = .ok [e]) (hsilent : e.isSilent = true)
    (h : close s (fuel + 1) t f = .ok f') :
    f' = f ∨ ∃ seen, (match t.along s.precedence e with
      | some next => close s fuel next { f with seen }
      | none => .ok { f with seen }) = .ok f' := by
  rw [close] at h
  split at h
  · exact .inl (pure_eq_ok.1 h).symm
  · simp only [bind_eq_ok, Network.state_eq_ok, hst, Option.some.injEq, exists_eq_left', hns,
      Bool.false_eq_true, if_false, honly, Except.ok.injEq, List.all_cons, hsilent, List.all_nil,
      Bool.and_self, if_true, List.foldlM_cons, List.foldlM_nil, bind_pure] at h
    exact .inr ⟨_, h⟩

theorem trails_close (hf : s.net.FollowsApproaches) (hlow : level < s.precedence) {fuel : Nat} :
    ∀ {t : Trail} {f : Front}, t.Approaches s.net level → close s fuel t f = .ok f' →
      f'.trails = f.trails := by
  induction fuel with
  | zero => exact fun _ h => nomatch h
  | succ fuel ih =>
    intro t f ht h
    obtain ⟨st, hst, hns, hheads⟩ := hf t.state level ht.state
    have hedges : edgesOf st t = .ok st.followed := by rw [edgesOf, ht.only]; rfl
    obtain ⟨u, hlist⟩ | ⟨u, hlist, hu⟩ := hheads
    all_goals rw [hlist] at hedges
    · obtain rfl | ⟨seen, h⟩ := close_of_single hst hns hedges rfl h
      · rfl
      · have hstuck : t.along s.precedence (.precedence u level) = none := by
          simp [Trail.along, ht.stack, ht.origin, hlow]
        rw [hstuck] at h
        exact Except.ok.inj h ▸ rfl
    · obtain rfl | ⟨seen, h⟩ := close_of_single hst hns hedges rfl h
      · rfl
      · exact ih (t := { t with state := u, only := none }) (f := { f with seen })
          ⟨hu, rfl, ht.stack, ht.origin⟩ h

/-- An alternative that leads to nothing but a level that is too low has no trail at the start. -/
theorem not_mem_alternatives_of_start (hf : s.net.FollowsApproaches) (hlow : level < s.precedence)
    (hst : s.net.states[decision]? = some st) (hns : st.isRuleStop = false)
    (hedge : st.edges[i]? = some (.plain x)) (hx : s.net.Approaches level x)
    (h : start s decision = .ok trails) : i + 1 ∉ alternatives trails := by
  simp only [start, bind_eq_ok, pure_eq_ok, Network.state_eq_ok, hst, Option.some.injEq,
    exists_eq_left'] at h
  obtain ⟨f, hf', rfl⟩ := h
  rintro ⟨y, hy, halternative⟩
  refine foldlM_keeps (P := fun f => ∀ y ∈ f.trails, y.alternative ≠ i + 1)
    (fun j _ g g' hg hclose y hy => ?_)
    (fun y hy => absurd hy List.not_mem_nil) hf' y hy halternative
  by_cases hj : j = i
  · subst hj
    have honly : edgesOf st { state := decision, alternative := j + 1, only := some j,
                              outer := s.follow.size } = .ok [.plain x] := by
      simp only [edgesOf, hedge]
      rfl
    obtain ⟨fuel, hfuel⟩ := Nat.exists_eq_add_one_of_ne_zero (n := closeBound s)
      (Nat.ne_of_gt (Nat.pow_pos (Nat.succ_pos _)))
    rw [hfuel] at hclose
    have hsame : g'.trails = g.trails := by
      obtain rfl | ⟨seen, hclose⟩ := close_of_single hst hns honly rfl hclose
      · rfl
      · exact trails_close hf hlow (f := { g with seen }) ⟨hx, rfl, rfl, rfl⟩ hclose
    exact hg y (hsame ▸ hy)
  · rcases alternative_of_close hclose y hy with hy | hy
    · exact hg y hy
    · rw [hy]
      exact fun heq => hj (Nat.succ.inj heq)

theorem precedence_le_of_choose {a : Nat} (hf : s.net.FollowsApproaches)
    (hst : s.net.states[decision]? = some st) (hns : st.isRuleStop = false)
    (hedge : st.edges[a - 1]? = some (.plain x)) (hx : s.net.Approaches level x)
    (h : choose s decision = .ok (.ok a)) : s.precedence ≤ level := by
  by_contra hlow
  have hpos := (answer_of_choose h hst).1
  simp only [choose, bind_eq_ok] at h
  obtain ⟨trails, htrails, h⟩ := h
  have hno := not_mem_alternatives_of_start hf (Int.not_le.1 hlow) hst hns hedge hx htrails
  rw [Nat.sub_add_cancel hpos] at hno
  exact hno (answer_of_chooseFrom h)

end GrammarWalk.Choice
