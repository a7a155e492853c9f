/-!
Loops without a bound of their own: steps are taken until one says that it was the last.
-/

namespace GrammarWalk.Loop

variable {ε σ : Type}

/-- What the last step leaves, or the error of a step that fails; nothing if no step is the last. -/
def run (step : σ → Except ε (Bool × σ)) (s : σ) : Option (Except ε σ) := _from s
where
  _from (s : σ) : Option (Except ε σ) :=
    match step s with
    | .error e => some (.error e)
    | .ok (true, s) => some (.ok s)
    | .ok (false, s) => _from s
  partial_fixpoint

/-- The same, with an error for a loop that does not come to an end. -/
def runOr (endless : ε) (step : σ → Except ε (Bool × σ)) (s : σ) : Except ε σ :=
  (run step s).getD (.error endless)

end GrammarWalk.Loop
