import GrammarWalk.Proofs.Load.Followed
import GrammarWalk.Proofs.Load.Language
import GrammarWalk.Proofs.Load.Safe
import GrammarWalk.Proofs.Network.Extension

/-! An optimization writes optimized lists and appends states, and leaves the rest of a network
alone. A check looks at the rest only, so it comes out after an optimization as it did before. -/

namespace GrammarWalk

namespace Network

variable {free : Call → Edge → Prop} {net a b : Network} {n s x i j : Nat}
  {st xst : State} {e m : Edge}
  {es' : List Edge}

/-- `net'` has the states of `net` with other optimized lists, the same tables, and behind these
states others with one match each, which leads to a state of `net`. -/
structure Untouched (net net' : Network) : Prop extends SameRaw net net' where
  added : ∀ {s : Nat} {st : State}, net'.states[s]? = some st → net.states.size ≤ s →
    ∃ (rule : Option Nat) (m : Edge), st = .matching s rule m ∧ m.isLabelled = true ∧
    m.target < net.states.size

/-- All that matches or calls goes on in the first `n` states. -/
structure GoesOnBelow (net : Network) (n : Nat) : Prop where
  onward_lt : ∀ {s : Nat} {st : State}, net.states[s]? = some st →
    ∀ e ∈ st.followed, e.matchesOrCalls = true →
    e.onward < n

section rewrite

theorem GoesOnBelow.of_follows (h : a.GoesOnBelow n) (hf : a.Follows s) : s < n := by
  obtain ⟨t, st, ht, e, he, hm, rfl⟩ := hf
  exact h.onward_lt ht e he hm

theorem GoesOnBelow.rewrite (h : a.GoesOnBelow n) (hr : Rewrite free a b) : b.GoesOnBelow n := by
  obtain ⟨x, xst, es', g, hnew⟩ := hr.grows
  refine ⟨fun {s st} hs e he hm => ?_⟩
  obtain ⟨old, hold, -, -, hfrom⟩ | ⟨-, -, hlabel, hfollows⟩ := g.followed_cases hnew hs he
  · obtain hkept | ⟨f, hf, mid, hmid, hop, hhop, rfl⟩ | ⟨fresh, rfl, -⟩ := hfrom
    · exact h.onward_lt hold e hkept hm
    · cases hm
    · cases hm
  · rw [Edge.onward_of_call?_eq_none (Edge.of_isLabelled hlabel).2.1]
    exact h.of_follows hfollows

theorem eq_of_rewritten_match (hm : m.isLabelled = true) (hf : xst.followed = [m])
    (hnew : (∃ i j, Replaced free a b x i j xst.followed es') ∨
      ∃ fresh m', Merged a b x xst.followed es' fresh m') : es' = [m] := by
  obtain ⟨i, j, hr⟩ | ⟨fresh, m', hmerge⟩ := hnew
  · rw [hf] at hr
    exact (hr.of_lone (Edge.of_isLabelled hm).1).1
  · have := hmerge.one_lt_length
    rw [hf] at this
    simp at this

theorem Untouched.rewrite (h : Untouched net a) (hbelow : a.GoesOnBelow net.states.size)
    (hr : Rewrite free a b) : Untouched net b := by
  obtain ⟨x, xst, es', g, hnew⟩ := hr.grows
  refine ⟨h.toSameRaw.rewrite hr, fun {s st} hs hge => ?_⟩
  by_cases hlt : s < a.states.size
  · obtain ⟨rfl, rfl⟩ | ⟨-, hold⟩ := g.cases hs hlt
    · obtain ⟨rule, m, hst, hm, htarget⟩ := h.added g.state hge
      refine ⟨rule, m, ?_, hm, htarget⟩
      rw [eq_of_rewritten_match hm (by rw [hst]; rfl) hnew, hst]
      rfl
    · exact h.added hold hge
  · obtain ⟨m, rule, rfl, hm, hfollows, -⟩ := g.new hs (Nat.not_lt.1 hlt)
    exact ⟨rule, m, rfl, hm, hbelow.of_follows hfollows⟩

theorem Untouched.ensureOptimized :
    Untouched net { net with states := net.states.map State.ensureOptimized } where
  old hs := ⟨_, ensureOptimized_getElem? hs⟩
  tables := rfl
  added hs hge := by
    have hlt := size_ensureOptimized ▸ lt_size hs
    exact absurd hge (Nat.not_le.2 hlt)

theorem GoesOnBelow.ensureOptimized (h : net.InRange) :
    GoesOnBelow { net with states := net.states.map State.ensureOptimized } net.states.size := by
  refine ⟨fun {s st} hs e he _ => ?_⟩
  obtain ⟨old, hold, rfl⟩ := exists_of_ensureOptimized hs
  exact ((h.within hold).followed e he).onward_lt

theorem Untouched.optimize (h : net.InRange) {changes : Changes}
    (hn : net.optimize = .ok (changes, b)) : Untouched net b :=
  (optimize_of_rewrites (P := fun m => Untouched net m ∧ m.GoesOnBelow net.states.size) h
    ⟨.ensureOptimized, .ensureOptimized h⟩
    (fun hm hr => ⟨hm.1.rewrite hm.2 hr, hm.2.rewrite hr⟩) hn).1

end rewrite

section check

variable {net' : Network} {st' : State}

theorem checkState_matching {rule : Option Nat} : net.checkState (.matching s rule m) = .ok () := by
  simp [checkState, checkKind, require, State.matching, State.isSilent, StateKind.decision?]
  rfl

theorem SameRaw.kindAhead_eq (h : SameRaw net net') (hw : st.Within net.states.size)
    {l : Option (List Edge)} :
    net'.kindAhead { st with optimized := l } i = net.kindAhead st i := by
  unfold kindAhead
  dsimp only
  split
  · rfl
  · rename_i e he
    obtain ⟨ahead, hahead⟩ : ∃ ahead, net.states[e.target]? = some ahead :=
      ⟨_, Array.getElem?_eq_getElem (hw.edges e (List.mem_of_getElem? he)).1⟩
    obtain ⟨l', hahead'⟩ := h.old hahead
    rw [state, hahead', state, hahead]
    rfl

theorem SameRaw.checkState_eq (h : SameRaw net net') (hw : st.Within net.states.size)
    {l : Option (List Edge)} : net'.checkState { st with optimized := l } = net.checkState st := by
  have hkind : net'.checkKind { st with optimized := l } = net.checkKind st := by
    unfold checkKind
    simp only [h.kindAhead_eq hw]
    rfl
  unfold checkState
  rw [hkind]
  rfl

theorem SameRaw.size_le (h : SameRaw net net') : net.states.size ≤ net'.states.size := by
  by_contra hlt
  obtain ⟨l, hl⟩ := h.old (Array.getElem?_eq_getElem (Nat.not_le.1 hlt))
  exact Nat.lt_irrefl _ (lt_size hl)

theorem forM_congr {ε α β : Type} {f : α → Except ε Unit} {g : β → Except ε Unit} {l : List α}
    {l' : List β} (h : List.Forall₂ (fun a b => f a = g b) l l') : l.forM f = l'.forM g := by
  induction h with
  | nil => rfl
  | @cons a b l l' hab _ ih =>
    show (f a >>= fun _ => l.forM f) = g b >>= fun _ => l'.forM g
    rw [hab, ih]

/-- A check comes out after an optimization as before: the same condition fails at the same state,
or none. -/
theorem Untouched.check_eq (h : Untouched net net') (hr : net.InRange) :
    net'.check = net.check := by
  have hold :
      List.Forall₂ (fun st st' => (if st.kind = .invalid then pure () else net.checkState st) =
      if st'.kind = .invalid then pure () else net'.checkState st')
      net.states.toList (net'.states.toList.take net.states.size) := by
    refine List.forall₂_iff_get.2 ⟨by simp [h.size_le], fun s hs _ => ?_⟩
    have hst : net.states[s]? = some net.states[s] := Array.getElem?_eq_getElem hs
    obtain ⟨l, hl⟩ := h.old hst
    obtain ⟨hlt, heq⟩ := Array.getElem?_eq_some_iff.1 hl
    simp only [List.get_eq_getElem, List.getElem_take, Array.getElem_toList, heq,
      h.checkState_eq (hr.within hst)]
  have hnew : ∀ st ∈ net'.states.toList.drop net.states.size,
      (if st.kind = .invalid then pure () else net'.checkState st) = .ok () := by
    intro st hst
    obtain ⟨i, hi⟩ := List.getElem?_of_mem hst
    rw [List.getElem?_drop, Array.getElem?_toList] at hi
    obtain ⟨rule, m, rfl, -⟩ := h.added hi (Nat.le_add_right _ _)
    exact checkState_matching
  have hsplit : net'.check = (net'.states.toList.take net.states.size).forM
      (fun st => if st.kind = .invalid then pure () else net'.checkState st) >>= fun _ =>
      (net'.states.toList.drop net.states.size).forM
        fun st => if st.kind = .invalid then pure () else net'.checkState st := by
    rw [List.forM_eq_forM, ← List.forM_append, List.take_append_drop]
    rfl
  rw [hsplit, forM_eq_ok.2 hnew, ← forM_congr hold]
  exact bind_pure_unit

end check

end Network

/--
An optimization of a network whose references are in range gives a result. It differs from the
network in optimized lists and in new states behind the old ones, each a basic state with one match
into an old state; and a check of it comes out as a check of the network. So the check that a load
makes behind the optimization passes if the one before it does.
-/
theorem optimize_untouched :
    (∀ {net : Network}, net.InRange → ∃ changes net', net.optimize = .ok (changes, net') ∧
      net.Untouched net' ∧ net'.check = net.check) ∧
    ∀ {words : List Wire.Word} {decoded bypassed : Network}, Wire.decode words = .ok decoded →
      (bypassed = decoded ∨ decoded.withBypasses = .ok bypassed) → bypassed.check = .ok () →
      ∃ changes net', bypassed.optimize = .ok (changes, net') ∧ net'.check = .ok () := by
  have optimized {net : Network} (h : net.InRange) :
      ∃ changes net', net.optimize = .ok (changes, net') ∧
      net.Untouched net' ∧ net'.check = net.check := by
    obtain ⟨⟨changes, net'⟩, hopt, -⟩ := Network.optimize_returns h
    have huntouched := Network.Untouched.optimize h hopt
    exact ⟨changes, net', hopt, huntouched, huntouched.check_eq h⟩
  refine ⟨optimized, fun hdecode hbypass hcheck => ?_⟩
  obtain ⟨hd, hsize⟩ := bypassed_keeps hdecode hbypass
  obtain ⟨changes, net', hopt, -, heq⟩ := optimized (hd.toWired.inRange hsize.ge)
  exact ⟨changes, net', hopt, heq.trans hcheck⟩

theorem optimize_untouched_oneCall :
    (∃ net changes net', loadWords oneCall { optimize := false } = .ok net ∧
      net.InRange ∧ net.optimize = .ok (changes, net') ∧ net.Untouched net' ∧
      net'.check = net.check) ∧
    ∃ decoded bypassed changes net', Wire.decode oneCall = .ok decoded ∧
    decoded.withBypasses = .ok bypassed ∧
      bypassed.check = .ok () ∧ bypassed.optimize = .ok (changes, net') ∧ net'.check = .ok () := by
  constructor
  · obtain ⟨net, hload, hrange⟩ := ok_of_any (x := loadWords oneCall { optimize := false })
      (p := fun net => decide net.InRange) (by decide +kernel)
    have hrange := of_decide_eq_true hrange
    obtain ⟨changes, net', h⟩ := optimize_untouched.1 hrange
    exact ⟨net, changes, net', hload, hrange, h⟩
  · obtain ⟨decoded, hdecode, h⟩ := ok_of_any (x := Wire.decode oneCall)
      (p := fun net => net.withBypasses.toOption.any fun net' => net'.check.toOption.any fun _ =>
        true) (by decide +kernel)
    obtain ⟨bypassed, hbypass, h⟩ := ok_of_any h
    obtain ⟨⟨⟩, hcheck, -⟩ := ok_of_any h
    obtain ⟨changes, net', hopt, hagain⟩ := optimize_untouched.2 hdecode (.inr hbypass) hcheck
    exact ⟨decoded, bypassed, changes, net', hdecode, hbypass, hcheck, hopt, hagain⟩

end GrammarWalk
