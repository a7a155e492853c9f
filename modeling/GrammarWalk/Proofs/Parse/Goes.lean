import GrammarWalk.Proofs.Parse.Contexts
import GrammarWalk.Proofs.Parse.Grounded

/-! Moves that go through. Where no rule is a precedence rule, a parse that is inside the rule of
some node returns from it and takes edges without fault, and changes no more than its tree and its
place. -/

namespace GrammarWalk

namespace Tree

variable {t : Tree} {x : Nat} {f : RuleNode → RuleNode}

theorem returns_modifyRule (hx : x < t.size) : Returns (t.modifyRule x f) fun _ => True :=
  Returns.bind (P := fun _ => True) (returns_ofLookup (Array.getElem?_eq_getElem hx) trivial)
    fun _ _ => returns_pure trivial

end Tree

namespace Walker

variable {w v : Walker} {c : Nat} {r : RuleNode} {st : State} {e : Edge}

theorem returns_enterRoot {rule start : Nat} (hstart : w.net.ruleStarts[rule]? = some start)
    (hplain : w.net.isPrecedenceRule rule = false) : Returns (w.enterRoot rule) fun w' =>
    ∃ tree, w' = { w with
      tree, startRule := rule, state := start, context := some w.tree.size } := by
  have hadd := w.tree.addRule_sets rule none none w.tokens.position
  refine Returns.bind (P := (· = start)) (returns_ofLookup hstart rfl) fun _ hs => ?_
  subst hs
  show Returns (if w.net.isPrecedenceRule rule = true then _ else enterRule { w with
    tree := (w.tree.addRule rule none none w.tokens.position).2,
      startRule := rule } w.tree.size _) _
  rw [if_neg (by simp [hplain]), enterRule, Tree.ruleNode?_of_getElem? hadd.node]
  exact returns_pure ⟨_, rfl⟩

theorem returns_exitRule (hin : w.In c r) : Returns w.exitRule fun w' =>
    ∃ tree, w' = { w with tree, context := r.parent, state := r.invoking.getD w.state } := by
  rw [exitRule, hin.context]
  dsimp only
  rw [Tree.ruleNode?_of_getElem? hin.node]
  exact (Tree.returns_modifyRule (Tree.lt_size hin.node)).bind fun tree _ =>
    returns_pure ⟨tree, rfl⟩

theorem returns_finishRoot (hin : w.In c r) (hplain : w.net.isPrecedenceRule w.startRule = false) :
    Returns w.finishRoot fun w' => w'.finished = true ∧ w'.failures = w.failures := by
  rw [finishRoot, if_neg (by simp [hplain])]
  refine (returns_exitRule hin).bind fun v hv => ?_
  obtain ⟨tree, rfl⟩ := hv
  exact returns_pure ⟨rfl, rfl⟩

theorem returns_visitStop (hin : w.In c r) (hst : w.net.states[w.state]? = some st)
    (hplain : w.net.isPrecedenceRule (st.rule.getD 0) = false) {s : Nat} {caller : State}
    (hinvoking : r.invoking = some s) (hcaller : w.net.states[s]? = some caller) :
    Returns w.visitStop fun w' =>
    ∃ tree, w' = { w with tree, context := r.parent, state := caller.goesOn?.getD s } := by
  rw [visitStop, Network.state_eq_ok.2 hst]
  show Returns (if w.net.isPrecedenceRule (st.rule.getD 0) = true then _ else _) _
  rw [if_neg (by simp [hplain])]
  refine (returns_exitRule hin).bind fun v hv => ?_
  obtain ⟨tree, rfl⟩ := hv
  rw [hinvoking]
  refine Returns.bind (P := (· = caller.goesOn?)) ?_ fun follow hfollow => ?_
  · exact (show Returns (w.net.state s) (· = caller)
      from ⟨caller, Network.state_eq_ok.2 hcaller, rfl⟩).bind
      fun _ hc => returns_pure (hc ▸ rfl)
  · exact returns_pure ⟨tree, by rw [hfollow]; rfl⟩

/-- An edge that takes no input and calls nothing changes nothing, at a level that allows it. -/
theorem takeEdge_of_silent (hsilent : e.isSilent = true) (hcall : e.call? = none)
    (hlevel : ∀ target level, e = .precedence target level → w.level ≤ level)
    (hkind : ∀ d loopback, st.kind ≠ .starLoopEntry d loopback true) :
    w.takeEdge st e = .ok (.ok w) := by
  cases e with
  | epsilon =>
    simp only [takeEdge]
    rfl
  | precedence target level => exact if_neg (Int.not_lt.2 (hlevel target level rfl))
  | predicate | action => rfl
  | call => cases hcall
  | atom | range | set | notSet | wildcard => cases hsilent

theorem returns_takeToken (hin : w.In c r) (fits : Int → Bool)
    (hfits : fits w.tokens.ahead = true) :
    Returns (w.takeToken fits) fun taken =>
      ∃ tree, taken = .ok { w with tree, tokens := w.tokens.advance } := by
  rw [takeToken, if_pos hfits, hin.context]
  obtain ⟨⟨id, tree⟩, htree⟩ : ∃ p, w.tree.addLeaf c w.tokens.position = .ok p :=
    Tree.addToken_returns (Tree.lt_size hin.node)
  dsimp only
  rw [htree]
  exact returns_pure ⟨tree, rfl⟩

theorem returns_takeEdge_call {k : Call} (hin : w.In c r)
    (hplain : w.net.isPrecedenceRule k.rule = false) :
    Returns (w.takeEdge st (.call k)) fun taken =>
      ∃ tree, taken = .ok { w with tree, state := k.start, context := some w.tree.size } := by
  have hadd := w.tree.addRule_sets k.rule (some c) (some w.state) w.tokens.position
  have hlt : c < (w.tree.addRule k.rule (some c) (some w.state) w.tokens.position).2.size :=
    (Tree.lt_size hin.node).trans Tree.lt_size_addRule
  simp only [takeEdge, hin.context]
  change Returns (if w.net.isPrecedenceRule k.rule = true then _ else enterRule { w with
    tree := (w.tree.addRule k.rule (some c) (some w.state) w.tokens.position).2,
      context := some c } w.tree.size k.start >>=
      fun w => pure (Except.ok w)) _
  rw [if_neg (by simp [hplain])]
  refine Returns.bind (P := fun v => ∃ tree, v =
    { w with tree, state := k.start, context := some w.tree.size }) ?_
    fun v hv => returns_pure (hv.imp fun _ => congrArg _)
  rw [enterRule, Tree.ruleNode?_of_getElem? hadd.node]
  exact (Tree.returns_modifyRule hlt).bind fun tree _ => returns_pure ⟨tree, rfl⟩

theorem visit_of_takeEdge {number : Nat} (hst : w.net.states[w.state]? = some st)
    (hchoose : w.chooseEdge st = .ok (.ok number)) (he : st.edges[number - 1]? = some e)
    (htaken : w.takeEdge st e = .ok (.ok v)) :
    w.visit = .ok (.ok { v with state := e.target }) := by
  refine bind_eq_ok.2 ⟨st, Network.state_eq_ok.2 hst, bind_eq_ok.2 ⟨_, hchoose, ?_⟩⟩
  dsimp only
  rw [he]
  exact bind_eq_ok.2 ⟨_, htaken, rfl⟩

end Walker

end GrammarWalk
