import GrammarWalk.Loop
import GrammarWalk.Proofs.Outcome
import Mathlib.Logic.Relation

/-! A loop gives a result exactly if some chain of steps leads to one that is the last, and a loop
whose steps go down in a well-founded order comes to an end. -/

namespace GrammarWalk.Loop

variable {ε σ : Type} {step : σ → Except ε (Bool × σ)} {s r : σ}

/-- One step that is not the last. -/
def Again (step : σ → Except ε (Bool × σ)) (s t : σ) : Prop := step s = .ok (false, t)

theorem run_of_again {t : σ} (h : Again step s t) : run step s = run step t := by
  rw [run, run._from, h]
  rfl

theorem run_of_last (h : step s = .ok (true, r)) : run step s = some (.ok r) := by
  rw [run, run._from, h]

theorem run_eq_ok : run step s = some (.ok r) ↔
    ∃ t, Relation.ReflTransGen (Again step) s t ∧ step t = .ok (true, r) := by
  constructor
  · intro h
    refine run._from.partial_correctness step (fun s x => x = .ok r → ∃ t,
      Relation.ReflTransGen (Again step) s t ∧ step t = .ok (true, r)) ?_ s _ h rfl
    intro go ih s x hx hr
    subst hr
    split at hx
    · cases hx
    · rename_i t hs
      obtain rfl : t = r := by simpa using hx
      exact ⟨s, .refl, hs⟩
    · rename_i t hs
      obtain ⟨u, hu, hlast⟩ := ih t _ hx rfl
      exact ⟨u, .head hs hu, hlast⟩
  · rintro ⟨t, ht, hlast⟩
    induction ht using Relation.ReflTransGen.head_induction_on with
    | refl => exact run_of_last hlast
    | head hstep _ ih => rw [run_of_again hstep, ih]

theorem runOr_eq_ok {endless : ε} : runOr endless step s = .ok r ↔
    ∃ t, Relation.ReflTransGen (Again step) s t ∧ step t = .ok (true, r) := by
  rw [← run_eq_ok, runOr]
  cases run step s <;> simp

theorem run_eq_error {e : ε} : run step s = some (.error e) ↔
    ∃ t, Relation.ReflTransGen (Again step) s t ∧ step t = .error e := by
  constructor
  · intro h
    refine run._from.partial_correctness step (fun s x => x = .error e → ∃ t,
      Relation.ReflTransGen (Again step) s t ∧ step t = .error e) ?_ s _ h rfl
    intro go ih s x hx he
    subst he
    split at hx
    · rename_i e' hs
      obtain rfl : e' = e := by simpa using hx
      exact ⟨s, .refl, hs⟩
    · cases hx
    · rename_i t hs
      obtain ⟨u, hu, hfails⟩ := ih t _ hx rfl
      exact ⟨u, .head hs hu, hfails⟩
  · rintro ⟨t, ht, hfails⟩
    induction ht using Relation.ReflTransGen.head_induction_on with
    | refl => rw [run, run._from, hfails]
    | head hstep _ ih => rw [run_of_again hstep, ih]

/-- A loop whose steps say in their errors where they were made comes to the same result or
error. -/
theorem runOr_mapError {ε' : Type} {g : ε' → ε} {step' : σ → Except ε' (Bool × σ)} {endless : ε'}
    (h : ∀ s, (step' s).mapError g = step s) :
    (runOr endless step' s).mapError g = runOr (g endless) step s := by
  have hagain : Again step = Again step' := by
    funext s t
    rw [Again, Again, ← h s, mapError_eq_ok]
  rw [runOr, runOr]
  cases hrun' : run step' s with
  | none =>
    cases hrun : run step s with
    | none => rfl
    | some x =>
      cases x with
      | ok r =>
        rw [run_eq_ok, hagain] at hrun
        obtain ⟨t, ht, hlast⟩ := hrun
        rw [← h, mapError_eq_ok] at hlast
        exact nomatch hrun'.symm.trans (run_eq_ok.2 ⟨t, ht, hlast⟩)
      | error e =>
        rw [run_eq_error, hagain] at hrun
        obtain ⟨t, ht, hfails⟩ := hrun
        rw [← h, mapError_eq_error] at hfails
        obtain ⟨e', hfails, -⟩ := hfails
        exact nomatch hrun'.symm.trans (run_eq_error.2 ⟨t, ht, hfails⟩)
  | some x =>
    cases x with
    | ok r =>
      obtain ⟨t, ht, hlast⟩ := run_eq_ok.1 hrun'
      rw [← hagain] at ht
      rw [run_eq_ok.2 ⟨t, ht, h t ▸ mapError_eq_ok.2 hlast⟩]
      rfl
    | error e =>
      obtain ⟨t, ht, hfails⟩ := run_eq_error.1 hrun'
      rw [← hagain] at ht
      rw [run_eq_error.2 ⟨t, ht, h t ▸ mapError_eq_error.2 ⟨e, hfails, rfl⟩⟩]
      rfl

theorem runOr_eq_error {endless e : ε} (h : runOr endless step s = .error e) :
    e = endless ∨ ∃ t, Relation.ReflTransGen (Again step) s t ∧ step t = .error e := by
  rw [runOr] at h
  cases hrun : run step s with
  | none =>
    rw [hrun] at h
    exact .inl (Except.error.inj h).symm
  | some x =>
    rw [hrun] at h
    obtain rfl : x = .error e := h
    exact .inr (run_eq_error.1 hrun)

/-- A loop comes to an end if its steps give results and go down in a well-founded order. -/
theorem run_of_wellFounded {lower : σ → σ → Prop} (hwf : WellFounded lower) {I P : σ → Prop}
    (hstep : ∀ s, I s → ∃ last t, step s = .ok (last, t) ∧ (last = true → P t) ∧
      (last = false → I t ∧ lower t s)) (hs : I s) :
    ∃ r, run step s = some (.ok r) ∧ P r := by
  induction s using hwf.induction with
  | _ s ih =>
    obtain ⟨last, t, ht, hlast, hagain⟩ := hstep s hs
    cases last with
    | true => exact ⟨t, run_of_last ht, hlast rfl⟩
    | false =>
      obtain ⟨hI, hlower⟩ := hagain rfl
      obtain ⟨r, hr, hP⟩ := ih t hlower hI
      exact ⟨r, (run_of_again ht).trans hr, hP⟩

/-- A loop of at most `n` steps; nothing if it would go on after them. -/
def unroll (step : σ → Except ε (Bool × σ)) : Nat → σ → Option (Except ε σ)
  | 0, _ => none
  | n + 1, s =>
    match step s with
    | .error e => some (.error e)
    | .ok (true, s) => some (.ok s)
    | .ok (false, s) => unroll step n s

theorem run_of_unroll {n : Nat} {x : Except ε σ} (h : unroll step n s = some x) :
    run step s = some x := by
  induction n generalizing s with
  | zero => exact nomatch h
  | succ n ih =>
    rw [unroll] at h
    rw [run, run._from]
    split <;> simp_all [run]

theorem runOr_of_unroll {endless : ε} (n : Nat) {p : σ → Bool}
    (h : (unroll step n s).any (·.toOption.any p) = true) :
    ∃ r, runOr endless step s = .ok r ∧ p r = true := by
  rw [runOr]
  cases hx : unroll step n s with
  | none =>
    rw [hx] at h
    exact nomatch h
  | some x =>
    rw [hx] at h
    rw [run_of_unroll hx]
    cases x with
    | error e => exact nomatch h
    | ok r => exact ⟨r, rfl, h⟩

end GrammarWalk.Loop
