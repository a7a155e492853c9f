import GrammarWalk.Proofs.Debug.Mismatches
import GrammarWalk.Proofs.Load.Structure
import GrammarWalk.Proofs.Parse.Recovery

/-! Recovery in whole runs. A parse goes on: it fails only so often at a token, and in all only so
often as there are tokens to read. When it drops a token is said of its failures so far. -/

namespace GrammarWalk

namespace Walker

variable {net : Network} {rule n : Nat} {l : List Token} {w w' : Walker} {f : Failure}

/-- A move goes on without a failure, to the end of the parse if it is finished, or it is one that
fails. -/
theorem Move.smooth_or_fails (h : w.Move w') :
    (∃ v, Smooth w v ∧ (w' = v ∨ w' = { v with finished := true })) ∨
      ∃ f, w.visit = .ok (.error f) ∧ w.fail f = .ok w' := by
  cases h with
  | visit _ _ hvisit => exact .inl ⟨w', smooth_visit hvisit, .inl rfl⟩
  | fail _ _ hvisit hfail => exact .inr ⟨_, hvisit, hfail⟩
  | leave _ _ _ hleave => exact .inl ⟨w', smooth_visitStop hleave, .inl rfl⟩
  | finish _ _ _ hfinish =>
    obtain ⟨v, hv, rfl⟩ := finishRoot_smooth hfinish
    exact .inl ⟨v, hv, .inr rfl⟩

/-- A parse of the list over the network, with what it has left behind. -/
structure Trailed (net : Network) (l : List Token) (w : Walker) : Prop where
  net : w.net = net
  body : w.tokens.body = (Tokens.ofList l).body
  remembers : w.Remembers
  progresses : w.Progresses

theorem Trailed.smooth (h : w.Trailed net l) (hw : Smooth w w') : w'.Trailed net l :=
  ⟨hw.net.trans h.net, hw.body.trans h.body, h.remembers.smooth hw, h.progresses.smooth hw⟩

theorem Trailed.move (h : w.Trailed net l) (hw : w.Move w') : w'.Trailed net l := by
  obtain ⟨v, hv, rfl | rfl⟩ | ⟨f, hvisit, hfail⟩ := hw.smooth_or_fails
  · exact h.smooth hv
  · obtain ⟨hnet, hbody, hm, hp⟩ := h.smooth hv
    exact ⟨hnet, hbody, ⟨hm.lastErrorIndex, hm.errorStates⟩,
      ⟨hp.ready, hp.isRead, hp.behind, hp.latest, hp.isStop, hp.here, hp.past⟩⟩
  · have hcont := continues_fail hfail
    have hhere := failsHere_of_visit hvisit
    exact ⟨hcont.net.trans h.net, hcont.body.trans h.body, h.remembers.fail hhere hfail,
      h.progresses.fail h.remembers hhere hfail⟩

theorem parseFor_trailed (h : parseFor net rule n l = .ok w) : w.Trailed net l :=
  parseFor_keeps (P := Trailed net l)
    (fun _ hw => Trailed.smooth ⟨rfl, rfl, remembers_start, progresses_start⟩ (smooth_enterRoot hw))
    (fun _ _ hw hm => hw.move hm) h

/-- Recovery drops a token, before it looks for one to go on with, exactly if the last failure
happened at this token and some failure so far, at whatever token, recovered to the same end of a
rule. -/
theorem recovery_drops (h : parseFor net rule n l = .ok w) (hfail : w.fail f = .ok w') :
    ∃ v, w.Recovers f v w' ∧ v.tokens =
      if w.failures.getLast?.map Failure.cursor = some w.tokens.position ∧
        ∃ g ∈ w.failures, net.recoversTo? g = net.recoversTo? f then w.tokens.advance
        else w.tokens := by
  obtain ⟨rfl, -, hm, -⟩ := parseFor_trailed h
  obtain ⟨v, hv⟩ := fail_recovers hfail
  refine ⟨v, hv, hv.tokens.trans (if_congr ?_ rfl rfl)⟩
  rw [hm.lastErrorIndex, hm.errorStates, hv.goesTo]

end Walker

namespace Wire

/-- `r : s 3`, `s : a 2 c a`, and `a` and `c` match the symbol 1. -/
def staleWords : List Word :=
  parserWords [[2, 0], [7, 0], [2, 1], [7, 1], [2, 2], [7, 2], [2, 3], [7, 3], [1, 0], [1, 1],
    [1, 1], [1, 1]] [0, 2, 4, 6]
    [callOf 0 8 2 1, atom 8 1 3, callOf 2 9 4 2, atom 9 10 2, callOf 10 11 6 3, callOf 11 3 4 2,
      atom 4 5 1, atom 6 7 1] []

/-- `s : r 2`, `r : x x`, and `x` matches the symbol 1. -/
def twiceWords : List Word :=
  parserWords [[2, 0], [7, 0], [2, 1], [7, 1], [2, 2], [7, 2], [1, 0], [1, 1]] [0, 2, 4]
    [callOf 0 6 2 1, atom 6 1 2, callOf 2 7 4 2, callOf 7 3 4 2, atom 4 5 1] []

end Wire

open Wire

/-- Rule `a` fails at the first token and, after `c` has failed there, at the second. That token is
dropped then, though `a` has not failed at it before and it fits after `s`. -/
theorem drops_unrepeated :
    loadWords staleWords { optimize := false } = .ok (loaded staleWords) ∧
    ∃ w w' f, Walker.parseFor (loaded staleWords) 0 9 [tokenOf 2, tokenOf 3] = .ok w ∧
      Walker.parseFor (loaded staleWords) 0 10 [tokenOf 2, tokenOf 3] = .ok w' ∧
      w'.failures = w.failures ++ [f] ∧
      (∀ g ∈ w.failures, g.cursor = f.cursor →
      (loaded staleWords).recoversTo? g ≠ (loaded staleWords).recoversTo? f) ∧
      (∃ found, w'.recoverySet = .ok found ∧ w.tokens.ahead ∈ found) ∧
      w.tokens.position = f.cursor ∧ w'.tokens.position = f.cursor + 1 := by
  refine ⟨loadWords_loaded (by decide +kernel), ?_⟩
  let ones : SymbolSet := .singleton 1
  obtain ⟨w, hw, hbefore⟩ :=
    ok_of_any (x := Walker.parseFor (loaded staleWords) 0 9 [tokenOf 2, tokenOf 3])
    (p := fun w => decide (w.failures = [.mismatch 4 0 ones, .mismatch 6 1 ones] ∧
      w.tokens.position = 1 ∧ w.tokens.ahead = 3)) (by decide +kernel)
  obtain ⟨w', hw', hafter⟩ :=
    ok_of_any (x := Walker.parseFor (loaded staleWords) 0 10 [tokenOf 2, tokenOf 3])
    (p := fun w => decide (w.failures =
      [.mismatch 4 0 ones, .mismatch 6 1 ones, .mismatch 4 1 ones] ∧ w.tokens.position = 2 ∧
      w.recoverySet.toOption.any (fun found => decide (3 ∈ found)) = true)) (by decide +kernel)
  obtain ⟨hfailures, hposition, hahead⟩ := of_decide_eq_true hbefore
  obtain ⟨hfailures', hposition', hset⟩ := of_decide_eq_true hafter
  obtain ⟨found, hfound, hfits⟩ := ok_of_any hset
  refine ⟨w, w', .mismatch 4 1 ones, hw, hw', by rw [hfailures', hfailures]; rfl, ?_,
    ⟨found, hfound, hahead ▸ of_decide_eq_true hfits⟩, hposition, hposition'⟩
  rw [hfailures]
  decide +kernel

/--
Recovery makes progress in every parse of a list of tokens. A failure is recorded at the current
token, and the parse recovers to the end of the rule in which it happened. If the token is no end of
input, the second failure at it that recovers to the same end of a rule leaves it behind. So there
is at most one failure more than there are rules at such a token, and in all at most as many for
each token on the default channel before the end of input is reached.
-/
theorem Walker.recovery_progresses {net : Network} {rule n : Nat} {l : List Token} {w : Walker}
    (h : parseFor net rule n l = .ok w) :
    (∀ f w', w.visit = .ok (.error f) → w.fail f = .ok w' →
      w'.failures = w.failures ++ [f] ∧ f.cursor = w.tokens.position ∧
      w'.state ∈ net.ruleStops ∧ net.recoversTo? f = some w'.state ∧
      (w.tokens.ahead ≠ Symbol.eof →
      (∃ g ∈ w.failuresAt w.tokens.position, net.recoversTo? g = some w'.state) →
        w.tokens.position < w'.tokens.position)) ∧
    (∀ i, (w.tokens.get i).type ≠ Symbol.eof → (w.failuresAt i).length ≤ net.ruleStops.size + 1) ∧
    w.failures.countP (fun f => (w.tokens.get f.cursor).type ≠ Symbol.eof) ≤
      (net.ruleStops.size + 1) * l.countP Token.isRead ∧
    ∀ words options, loadWords words options = .ok net → net.ruleStops.size = net.ruleCount := by
  obtain ⟨rfl, hbody, hm, hp⟩ := parseFor_trailed h
  refine ⟨fun f w' hvisit hfail => ?_, fun i hi => hp.length_failuresAt_le hi, ?_,
    fun words options hload => ?_⟩
  · obtain ⟨v, hv⟩ := fail_recovers hfail
    have hstate : w'.state = v.state := hv.sought.2
    have hgoes : w.net.recoversTo? f = some w'.state := hstate ▸ hv.goesTo
    refine ⟨failures_fail hfail, (failsHere_of_visit hvisit).2, hstate ▸ hv.isStop, hgoes,
      fun hahead hagain => ?_⟩
    exact hp.lt_fail hm hfail hahead (hgoes ▸ hagain)
  · refine hp.countP_failures_le.trans (Nat.mul_le_mul_left _ ?_)
    have hreadable : w.tokens.readable = (Tokens.ofList l).readable := by
      rw [Tokens.readable, hbody, Tokens.readable]
    exact hreadable ▸ Tokens.length_readable_le l
  · exact (loadWords_wired hload).2

/-- The rule of one token fails twice at the same token, which the second failure leaves behind. -/
theorem Walker.recovery_progresses_twice :
    loadWords twiceWords { optimize := false } = .ok (loaded twiceWords) ∧
    ∃ w f w', parseFor (loaded twiceWords) 0 5 [tokenOf 2] = .ok w ∧ w.visit = .ok (.error f) ∧
    w.fail f = .ok w' ∧
      w.tokens.ahead ≠ Symbol.eof ∧
      (∃ g ∈ w.failuresAt w.tokens.position, (loaded twiceWords).recoversTo? g = some w'.state) ∧
      w.tokens.position < w'.tokens.position ∧
      (w.failuresAt 0).length ≤ (loaded twiceWords).ruleCount + 1 := by
  have hload : loadWords twiceWords { optimize := false } = .ok (loaded twiceWords) :=
    loadWords_loaded (by decide +kernel)
  let again : Failure := .mismatch 4 0 (.singleton 1)
  obtain ⟨w, hw, hfails⟩ := ok_of_any (x := parseFor (loaded twiceWords) 0 5 [tokenOf 2])
    (p := fun w : Walker => decide (w.tokens.ahead = 2 ∧ w.failuresAt w.tokens.position = [again] ∧
      (w.tokens.get 0).type = 2) && (w.visit.toOption.any fun c : Except Failure Walker =>
      decide (c.map (fun _ => ()) = .error again)) && (w.fail again).toOption.any fun w' : Walker =>
      decide (w'.state = 5)) (by decide +kernel)
  simp only [Bool.and_eq_true] at hfails
  obtain ⟨⟨hbefore, hvisit⟩, hfail⟩ := hfails
  obtain ⟨hahead, hat, hfirst⟩ := of_decide_eq_true hbefore
  obtain ⟨c, hvisit, hc⟩ := ok_of_any hvisit
  obtain rfl := map_eq_error.1 (of_decide_eq_true hc)
  obtain ⟨w', hfail, hstate⟩ := ok_of_any hfail
  obtain ⟨hmove, hcount, -, hrules⟩ := recovery_progresses hw
  have hholds : w.tokens.ahead ≠ Symbol.eof := by rw [hahead]; decide
  have hagain : ∃ g ∈ w.failuresAt w.tokens.position, (loaded twiceWords).recoversTo? g =
      some w'.state := by
    rw [hat, of_decide_eq_true hstate]
    decide +kernel
  refine ⟨hload, w, again, w', hw, hvisit, hfail, hholds, hagain,
    (hmove again w' hvisit hfail).2.2.2.2 hholds hagain, ?_⟩
  rw [← hrules _ _ hload]
  exact hcount 0 (by rw [hfirst]; decide)

end GrammarWalk
