import GrammarWalk.Parse.Walker
import GrammarWalk.Proofs.Network.Wired
import GrammarWalk.Proofs.Outcome
import GrammarWalk.Proofs.Tokens

/-! A parse walks one network over one list of tokens, and nothing but the end of the outermost rule
finishes it. The list of its failures and what is noted for recovery stay as they are, and what a
failure sets off adds that failure to the list. -/

namespace GrammarWalk.Walker

/-- `w'` is a later point of the parse that `w` is a point of, and finished only if `w` is. -/
structure Continues (w w' : Walker) : Prop where
  net : w'.net = w.net
  body : w'.tokens.body = w.tokens.body
  last : w'.tokens.last = w.tokens.last
  finished : w'.finished = w.finished

/-- The parse continues with the tokens from some place on, and no failure is recorded on the
way. -/
structure Smooth (w w' : Walker) : Prop extends Continues w w' where
  failures : w'.failures = w.failures
  lastErrorIndex : w'.lastErrorIndex = w.lastErrorIndex
  errorStates : w'.errorStates = w.errorStates
  tokens : ∃ k, w'.tokens = Tokens.advance^[k] w.tokens

variable {w w' w'' : Walker}

theorem Continues.trans (h : Continues w w') (h' : Continues w' w'') : Continues w w'' :=
  ⟨h'.net.trans h.net, h'.body.trans h.body, h'.last.trans h.last, h'.finished.trans h.finished⟩

theorem Continues.get (h : Continues w w') : w'.tokens.get = w.tokens.get :=
  funext fun i => by rw [Tokens.get, h.body, h.last]; rfl

theorem Continues.isRead {i : Nat} (h : Continues w w') :
    w'.tokens.IsRead i ↔ w.tokens.IsRead i := by
  rw [Tokens.IsRead, Tokens.lastIndex, h.body]
  rfl

theorem Smooth.refl (w : Walker) : Smooth w w := ⟨⟨rfl, rfl, rfl, rfl⟩, rfl, rfl, rfl, 0, rfl⟩

theorem Smooth.trans (h : Smooth w w') (h' : Smooth w' w'') : Smooth w w'' where
  toContinues := h.toContinues.trans h'.toContinues
  failures := h'.failures.trans h.failures
  lastErrorIndex := h'.lastErrorIndex.trans h.lastErrorIndex
  errorStates := h'.errorStates.trans h.errorStates
  tokens := by
    obtain ⟨k, hk⟩ := h.tokens
    obtain ⟨k', hk'⟩ := h'.tokens
    exact ⟨k' + k, by rw [hk', hk, Function.iterate_add_apply]⟩

theorem advance_body (ts : Tokens) : ts.advance.body = ts.body := by
  unfold Tokens.advance
  split <;> rfl

theorem advance_last (ts : Tokens) : ts.advance.last = ts.last := by
  unfold Tokens.advance
  split <;> rfl

theorem smooth_advance (w : Walker) (tree : Tree) :
    Smooth w { w with tree, tokens := w.tokens.advance } :=
  ⟨⟨rfl, advance_body w.tokens, advance_last w.tokens, rfl⟩, rfl, rfl, rfl, 1, rfl⟩

theorem smooth_enterRule {node start : Nat} (h : w.enterRule node start = .ok w') :
    Smooth w w' := by
  rw [enterRule, bind_eq_ok] at h
  obtain ⟨node, -, h⟩ := h
  dsimp only at h
  split at h
  all_goals
    simp only [bind_eq_ok, pure_eq_ok] at h
    obtain ⟨_, -, rfl⟩ := h
    exact ⟨⟨rfl, rfl, rfl, rfl⟩, rfl, rfl, rfl, 0, rfl⟩

theorem smooth_enterRecursion {node start : Nat} {level : Int}
    (h : w.enterRecursion node start level = .ok w') : Smooth w w' := by
  simp only [enterRecursion, bind_eq_ok, pure_eq_ok] at h
  obtain ⟨_, -, rfl⟩ := h
  exact ⟨⟨rfl, rfl, rfl, rfl⟩, rfl, rfl, rfl, 0, rfl⟩

theorem smooth_enterRoot {rule : Nat} (h : w.enterRoot rule = .ok w') : Smooth w w' := by
  simp only [enterRoot, bind_eq_ok] at h
  obtain ⟨start, -, h⟩ := h
  refine Smooth.trans ?_ (?_ : Smooth
    { w with tree := (w.tree.addRule rule none none w.tokens.position).2, startRule := rule } w')
  · exact ⟨⟨rfl, rfl, rfl, rfl⟩, rfl, rfl, rfl, 0, rfl⟩
  · split at h
    · exact smooth_enterRecursion h
    · exact smooth_enterRule h

theorem smooth_wrap {start : Nat} (h : w.wrap start = .ok w') : Smooth w w' := by
  simp only [wrap, bind_eq_ok] at h
  obtain ⟨node, -, h⟩ := h
  split at h
  · simp only [bind_eq_ok, pure_eq_ok] at h
    obtain ⟨_, -, _, -, rfl⟩ := h
    exact ⟨⟨rfl, rfl, rfl, rfl⟩, rfl, rfl, rfl, 0, rfl⟩
  · exact pure_eq_ok.1 h ▸ .refl w

theorem smooth_unwind {parent : Option Nat} (h : w.unwind parent = .ok w') : Smooth w w' := by
  unfold unwind at h
  dsimp only at h
  split at h
  · obtain rfl := pure_eq_ok.1 h
    exact ⟨⟨rfl, rfl, rfl, rfl⟩, rfl, rfl, rfl, 0, rfl⟩
  · rw [bind_eq_ok] at h
    obtain ⟨_, -, h⟩ := h
    split at h
    all_goals
      simp only [bind_eq_ok, pure_eq_ok] at h
      obtain ⟨_, -, rfl⟩ := h
      exact ⟨⟨rfl, rfl, rfl, rfl⟩, rfl, rfl, rfl, 0, rfl⟩

theorem smooth_exitRule (h : w.exitRule = .ok w') : Smooth w w' := by
  unfold exitRule at h
  split at h
  · exact pure_eq_ok.1 h ▸ .refl w
  · rw [bind_eq_ok] at h
    obtain ⟨node, -, h⟩ := h
    split at h
    · obtain rfl := pure_eq_ok.1 h
      exact ⟨⟨rfl, rfl, rfl, rfl⟩, rfl, rfl, rfl, 0, rfl⟩
    · simp only [bind_eq_ok, pure_eq_ok] at h
      obtain ⟨_, -, rfl⟩ := h
      exact ⟨⟨rfl, rfl, rfl, rfl⟩, rfl, rfl, rfl, 0, rfl⟩

theorem smooth_visitStop (h : w.visitStop = .ok w') : Smooth w w' := by
  rw [visitStop, bind_eq_ok] at h
  obtain ⟨_, -, h⟩ := h
  dsimp only at h
  split at h
  · have hopen : Smooth w { w with recursions := w.recursions.tail } :=
      ⟨⟨rfl, rfl, rfl, rfl⟩, rfl, rfl, rfl, 0, rfl⟩
    simp only [bind_eq_ok, pure_eq_ok] at h
    obtain ⟨u, hu, v, rfl, _, -, rfl⟩ := h
    exact hopen.trans ((smooth_unwind hu).trans ⟨⟨rfl, rfl, rfl, rfl⟩, rfl, rfl, rfl, 0, rfl⟩)
  · simp only [bind_eq_ok, pure_eq_ok] at h
    obtain ⟨v, hv, _, -, rfl⟩ := h
    exact (smooth_exitRule hv).trans ⟨⟨rfl, rfl, rfl, rfl⟩, rfl, rfl, rfl, 0, rfl⟩

theorem finishRoot_smooth (h : w.finishRoot = .ok w') :
    ∃ v, Smooth w v ∧ w' = { v with finished := true } := by
  unfold finishRoot at h
  dsimp only at h
  split at h
  all_goals
    simp only [bind_eq_ok, pure_eq_ok] at h
    obtain ⟨v, hv, rfl⟩ := h
  · have hopen : Smooth w { w with recursions := w.recursions.tail } :=
      ⟨⟨rfl, rfl, rfl, rfl⟩, rfl, rfl, rfl, 0, rfl⟩
    exact ⟨v, hopen.trans (smooth_unwind hv), rfl⟩
  · exact ⟨v, smooth_exitRule hv, rfl⟩

theorem finished_finishRoot (h : w.finishRoot = .ok w') : w'.finished = true := by
  obtain ⟨v, -, rfl⟩ := finishRoot_smooth h
  rfl

theorem smooth_takeToken {fits : Int → Bool} (h : w.takeToken fits = .ok (.ok w')) :
    Smooth w w' := by
  unfold takeToken at h
  split at h
  · split at h
    all_goals
      simp only [bind_eq_ok, pure_eq_ok] at h
      obtain ⟨_, -, h⟩ := h
    · obtain ⟨_, rfl, h⟩ := h
      obtain rfl := Except.ok.inj h
      exact smooth_advance w _
    · obtain rfl := Except.ok.inj h
      exact smooth_advance w _
  · simp only [bind_eq_ok, pure_eq_ok] at h
    obtain ⟨_, -, _, -, h⟩ := h
    exact nomatch h

theorem smooth_takeEdge {st : State} {e : Edge} (h : w.takeEdge st e = .ok (.ok w')) :
    Smooth w w' := by
  unfold takeEdge at h
  split at h
  · split at h
    · rw [bind_eq_ok] at h
      obtain ⟨_, -, h⟩ := h
      split at h
      · obtain rfl := Except.ok.inj (pure_eq_ok.1 h)
        exact .refl w
      · simp only [bind_eq_ok, pure_eq_ok] at h
        obtain ⟨_, -, v, hv, h⟩ := h
        obtain rfl := Except.ok.inj h
        exact smooth_wrap hv
    · obtain rfl := Except.ok.inj (pure_eq_ok.1 h)
      exact .refl w
  · exact smooth_takeToken h
  · exact smooth_takeToken h
  · exact smooth_takeToken h
  · exact smooth_takeToken h
  · exact smooth_takeToken h
  · rename_i c
    refine Smooth.trans ?_ (?_ : Smooth
      { w with tree := (w.tree.addRule c.rule w.context (some w.state) w.tokens.position).2 } w')
    · exact ⟨⟨rfl, rfl, rfl, rfl⟩, rfl, rfl, rfl, 0, rfl⟩
    · dsimp only at h
      split at h
      · simp only [bind_eq_ok, pure_eq_ok] at h
        obtain ⟨v, hv, h⟩ := h
        obtain rfl := Except.ok.inj h
        exact smooth_enterRecursion hv
      · simp only [bind_eq_ok, pure_eq_ok] at h
        obtain ⟨v, hv, h⟩ := h
        obtain rfl := Except.ok.inj h
        exact smooth_enterRule hv
  · split at h
    · exact nomatch pure_eq_ok.1 h
    · obtain rfl := Except.ok.inj (pure_eq_ok.1 h)
      exact .refl w
  · obtain rfl := Except.ok.inj (pure_eq_ok.1 h)
    exact .refl w
  · obtain rfl := Except.ok.inj (pure_eq_ok.1 h)
    exact .refl w

/-- A visit takes the edge that is chosen and goes to its target, or it leaves a state without edges
for the rule's stop. -/
theorem visit_eq_ok (h : w.visit = .ok (.ok w')) :
    ∃ st number, w.net.states[w.state]? = some st ∧
    w.chooseEdge st = .ok (.ok number) ∧
    ((∃ e v, st.edges[number - 1]? = some e ∧ w.takeEdge st e = .ok (.ok v) ∧
    w' = { v with state := e.target }) ∨
      st.edges[number - 1]? = none ∧ (st.rule = none ∧ w' = w ∨
        ∃ rule stop, st.rule = some rule ∧ w.net.ruleStops[rule]? = some stop ∧
        w' = { w with state := stop })) := by
  simp only [visit, bind_eq_ok, Network.state_eq_ok] at h
  obtain ⟨st, hst, choice, hchoice, h⟩ := h
  split at h
  · exact nomatch pure_eq_ok.1 h
  · rename_i number
    refine ⟨st, number, hst, hchoice, ?_⟩
    split at h
    · rename_i hnone
      refine .inr ⟨hnone, ?_⟩
      split at h
      · exact .inl ⟨‹_›, (Except.ok.inj (pure_eq_ok.1 h)).symm⟩
      · simp only [bind_eq_ok, Fault.ofLookup_eq_ok, pure_eq_ok, Except.ok.injEq] at h
        obtain ⟨stop, hstop, rfl⟩ := h
        exact .inr ⟨_, stop, ‹_›, hstop, rfl⟩
    · rename_i e he
      rw [bind_eq_ok] at h
      obtain ⟨taken, htaken, h⟩ := h
      split at h
      · exact nomatch pure_eq_ok.1 h
      · exact .inl ⟨e, _, he, htaken, (Except.ok.inj (pure_eq_ok.1 h)).symm⟩

theorem smooth_visit (h : w.visit = .ok (.ok w')) : Smooth w w' := by
  obtain ⟨st, number, -, -, ⟨e, v, -, htaken, rfl⟩ | ⟨-, ⟨-, rfl⟩ | ⟨_, stop, -, -, rfl⟩⟩⟩ :=
    visit_eq_ok h
  · exact (smooth_takeEdge htaken).trans ⟨⟨rfl, rfl, rfl, rfl⟩, rfl, rfl, rfl, 0, rfl⟩
  · exact .refl w'
  · exact ⟨⟨rfl, rfl, rfl, rfl⟩, rfl, rfl, rfl, 0, rfl⟩

theorem skipToken_eq_ok (h : w.skipToken = .ok w') :
    ∃ tree, w' = { w with tree, tokens := w.tokens.advance } := by
  unfold skipToken at h
  split at h
  all_goals
    simp only [bind_eq_ok, pure_eq_ok] at h
    obtain ⟨_, -, h⟩ := h
  · obtain ⟨_, rfl, rfl⟩ := h
    exact ⟨_, rfl⟩
  · exact ⟨_, h.symm⟩

theorem smooth_skipToken (h : w.skipToken = .ok w') : Smooth w w' := by
  obtain ⟨tree, rfl⟩ := skipToken_eq_ok h
  exact smooth_advance w tree

theorem smooth_skipTo {recovery : SymbolSet} {fuel : Nat} :
    ∀ {w w' : Walker}, skipTo recovery fuel w = .ok w' → Smooth w w' := by
  induction fuel with
  | zero => exact fun h => nomatch h
  | succ fuel ih =>
    intro w w' h
    rw [skipTo] at h
    split at h
    · exact pure_eq_ok.1 h ▸ .refl w
    · rw [bind_eq_ok] at h
      obtain ⟨v, hv, h⟩ := h
      exact (smooth_skipToken hv).trans (ih h)

/-- Recovery drops a token if it was tried before here, notes that it is tried, and goes on to a
token that fits. -/
theorem recover_eq_ok (h : w.recover = .ok w') : ∃ u v recovery,
    (if w.lastErrorIndex = some w.tokens.position ∧ w.state ∈ w.errorStates then w.skipToken = .ok u
      else u = w) ∧
      v = { u with
        lastErrorIndex := some w.tokens.position, errorStates := u.errorStates.insert u.state } ∧
      v.recoverySet = .ok recovery ∧ skipTo recovery (v.tokens.size + 1) v = .ok w' := by
  unfold recover at h
  dsimp only at h
  split at h
  · rename_i hagain
    simp only [bind_eq_ok] at h
    obtain ⟨u, hu, recovery, hset, hskip⟩ := h
    exact ⟨u, _, recovery, by rwa [if_pos hagain], rfl, hset, hskip⟩
  · rename_i hagain
    simp only [bind_eq_ok, pure_eq_ok] at h
    obtain ⟨_, rfl, recovery, hset, hskip⟩ := h
    exact ⟨w, _, recovery, by rw [if_neg hagain], rfl, hset, hskip⟩

theorem recover_continues (h : w.recover = .ok w') : Continues w w' ∧ w'.failures = w.failures := by
  obtain ⟨u, v, recovery, hu, rfl, -, hskip⟩ := recover_eq_ok h
  have hdrop : Smooth w u := by
    split at hu
    · exact smooth_skipToken hu
    · exact hu ▸ .refl w
  have hseek := smooth_skipTo hskip
  exact ⟨hdrop.toContinues.trans ⟨hseek.net, hseek.body, hseek.last, hseek.finished⟩,
    hseek.failures.trans hdrop.failures⟩

theorem continues_enterRoot {rule : Nat} (h : w.enterRoot rule = .ok w') : Continues w w' :=
  (smooth_enterRoot h).toContinues

theorem continues_visit (h : w.visit = .ok (.ok w')) : Continues w w' :=
  (smooth_visit h).toContinues

theorem continues_visitStop (h : w.visitStop = .ok w') : Continues w w' :=
  (smooth_visitStop h).toContinues

theorem fail_eq_ok {f : Failure} (h : w.fail f = .ok w') :
    ∃ st stop tree, w.net.states[f.state]? = some st ∧
    w.net.ruleStops[st.rule.getD 0]? = some stop ∧
    recover { w with tree, state := stop, failures := w.failures ++ [f] } = .ok w' := by
  simp only [fail, bind_eq_ok, Network.state_eq_ok, Fault.ofLookup_eq_ok] at h
  obtain ⟨st, hst, stop, hstop, h⟩ := h
  split at h
  all_goals
    rw [bind_eq_ok] at h
    obtain ⟨tree, -, h⟩ := h
    exact ⟨st, stop, tree, hst, hstop, h⟩

theorem fail_continues {f : Failure} (h : w.fail f = .ok w') :
    Continues w w' ∧ w'.failures = w.failures ++ [f] := by
  obtain ⟨_, stop, tree, -, -, h⟩ := fail_eq_ok h
  have hgo : Continues w { w with tree, state := stop, failures := w.failures ++ [f] } :=
    ⟨rfl, rfl, rfl, rfl⟩
  obtain ⟨hcontinues, hfailures⟩ := recover_continues h
  exact ⟨hgo.trans hcontinues, hfailures⟩

theorem continues_fail {f : Failure} (h : w.fail f = .ok w') : Continues w w' :=
  (fail_continues h).1

theorem failures_enterRoot {rule : Nat} (h : w.enterRoot rule = .ok w') :
    w'.failures = w.failures :=
  (smooth_enterRoot h).failures

theorem failures_visit (h : w.visit = .ok (.ok w')) : w'.failures = w.failures :=
  (smooth_visit h).failures

theorem failures_fail {f : Failure} (h : w.fail f = .ok w') : w'.failures = w.failures ++ [f] :=
  (fail_continues h).2

theorem failures_visitStop (h : w.visitStop = .ok w') : w'.failures = w.failures :=
  (smooth_visitStop h).failures

theorem failures_finishRoot (h : w.finishRoot = .ok w') : w'.failures = w.failures := by
  obtain ⟨v, hv, rfl⟩ := finishRoot_smooth h
  exact hv.failures

end GrammarWalk.Walker
