import GrammarWalk.Proofs.Network.Wired
import GrammarWalk.Proofs.Parse.Continues
import GrammarWalk.Proofs.Parse.Tree

/-! What one move of a parse does, when the parse is inside the rule of some node. Each function of
the walker is taken apart once, into the ways in which it can come to a result. -/

namespace GrammarWalk

/-- The edge takes a token of type `v`. A wildcard takes all but the end of input. -/
def Edge.fits (e : Edge) (v maxToken : Int) : Bool :=
  match e with
  | .wildcard _ => v != Symbol.eof
  | e => e.accepts v Symbol.minToken maxToken

/-- The place of the current token at the failure. -/
def Failure.cursor : Failure → Nat
  | .noAlternative _ start _ => start
  | .mismatch _ place _ | .predicate _ _ place _ => place

namespace Walker

/-- The parse is inside the rule of node `c`. -/
structure In (w : Walker) (c : Nat) (r : RuleNode) : Prop where
  context : w.context = some c
  node : w.tree.nodes[c]? = some (.rule r)

/-- The current token becomes the last child of node `c`. -/
def Reads (w : Walker) (c : Nat) (r : RuleNode) (n : Node) (w' : Walker) : Prop :=
  ∃ tree, w.tree.Attaches tree c r n ∧ w' = { w with tree, tokens := w.tokens.advance }

/-- The invocation of a precedence rule that the parse is in, as far as there is one. -/
def outer (w : Walker) : Recursion := w.recursions.head?.getD { context := none, invoking := none }

/-- What becomes of a parse that takes edge `e` out of state `st`, before it goes to the target. -/
inductive Took (w : Walker) (st : State) (c : Nat) (r : RuleNode) : Edge → Walker → Prop
  | silent {e : Edge} : e.isSilent = true → e.call? = none → Took w st c r e w
  | wrap {target start : Nat} {d : Decision} {loopback returning : Option Nat} {tree : Tree} :
      st.kind = .starLoopEntry d loopback true → w.net.ruleStarts[st.rule.getD 0]? = some start →
      w.tree.Wraps tree c r w.outer.context w.outer.invoking start →
      Took w st c r (.epsilon target returning) { w with tree, context := some w.tree.size }
  | token {e : Edge} {w' : Walker} : e.fits w.tokens.ahead w.net.maxToken = true →
      w.Reads c r (.leaf c w.tokens.position) w' → Took w st c r e w'
  | call {k : Call} {tree : Tree} : w.net.isPrecedenceRule k.rule = false →
      w.tree.Attaches tree c r (.rule {
        rule := k.rule, parent := some c, invoking := some w.state, start := w.tokens.position }) →
      Took w st c r (.call k) { w with tree, state := k.start, context := some w.tree.size }
  | recurse {k : Call} {tree : Tree} : w.net.isPrecedenceRule k.rule = true →
      w.tree.Sets tree w.tree.size (.rule {
        rule := k.rule, parent := some c, invoking := some w.state, start := w.tokens.position }) →
      tree.root = w.tree.root →
      Took w st c r (.call k) { w with
        tree, state := k.start, context := some w.tree.size, levels := k.precedence :: w.levels
        recursions := { context := some c, invoking := some w.state } :: w.recursions }

/-- The failure is one at the state and the token where the parse stands. -/
def FailsHere (w : Walker) (f : Failure) : Prop := f.state = w.state ∧ f.cursor = w.tokens.position

variable {w w' : Walker} {c : Nat} {r : RuleNode} {st : State} {e : Edge} {f : Failure}

theorem takeToken_reads {fits : Int → Bool} (hin : w.In c r) (h : w.takeToken fits = .ok (.ok w')) :
    fits w.tokens.ahead = true ∧ w.Reads c r (.leaf c w.tokens.position) w' := by
  rw [takeToken, hin.context] at h
  split at h
  · rename_i hfits
    simp only [bind_eq_ok, pure_eq_ok, Except.ok.injEq] at h
    obtain ⟨⟨id, tree⟩, htree, _, rfl, rfl⟩ := h
    exact ⟨hfits, tree, Tree.addToken_attaches hin.node htree, by rw [hin.context]⟩
  · simp only [bind_eq_ok, pure_eq_ok, reduceCtorEq, and_false, exists_false] at h

theorem mismatch_of_takeToken {fits : Int → Bool} (h : w.takeToken fits = .ok (.error f)) :
    fits w.tokens.ahead = false ∧ ∃ follow expected, w.net.expectedSymbols w.state follow =
      .ok expected ∧
      f = .mismatch w.state w.tokens.position expected := by
  unfold takeToken at h
  split at h
  · split at h <;> simp only [bind_eq_ok, pure_eq_ok, reduceCtorEq, and_false, exists_false] at h
  · rename_i hfits
    simp only [bind_eq_ok, pure_eq_ok, Except.error.injEq] at h
    obtain ⟨follow, -, expected, hexpected, rfl⟩ := h
    exact ⟨by simpa using hfits, follow, expected, hexpected, rfl⟩

theorem wrap_eq_ok {start : Nat} (hin : w.In c r) (hlt : ∀ p, r.parent = some p → p < c)
    (h : w.wrap start = .ok w') :
    ∃ tree, w.tree.Wraps tree c r w.outer.context w.outer.invoking start ∧
      w' = { w with tree, context := some w.tree.size } := by
  simp only [wrap, contextNode?, hin.context, Tree.ruleNode?_of_getElem? hin.node] at h
  simp only [bind_eq_ok, pure_eq_ok, Except.ok.injEq, exists_eq_left'] at h
  obtain ⟨u, hu, tree, htree, rfl⟩ := h
  exact ⟨tree, Tree.wraps_of_reparent hin.node hlt hu htree, rfl⟩

theorem takeEdge_of_not_isSilent (he : e.isSilent = false) :
    w.takeEdge st e = w.takeToken (e.fits · w.net.maxToken) := by
  cases e with
  | atom target symbol =>
    have hfits : (fun v => (Edge.atom target symbol).fits v w.net.maxToken) = (· == symbol) := by
      funext v
      exact Bool.beq_comm
    rw [hfits]
    rfl
  | range | set | notSet | wildcard => rfl
  | epsilon | call | predicate | precedence | action => cases he

theorem takeEdge_call {k : Call} (hin : w.In c r) (h : w.takeEdge st (.call k) = .ok (.ok w')) :
    w.Took st c r (.call k) w' := by
  have hadd := w.tree.addRule_sets k.rule (some c) (some w.state) w.tokens.position
  have hroot : (w.tree.addRule k.rule (some c) (some w.state) w.tokens.position).2.root =
    w.tree.root := rfl
  simp only [takeEdge, hin.context] at h
  change (if w.net.isPrecedenceRule k.rule = true then
      enterRecursion { w with tree := (w.tree.addRule k.rule (some c)
        (some w.state) w.tokens.position).2, context := some c }
        w.tree.size k.start k.precedence >>= fun w => pure (.ok w)
    else enterRule { w with tree := (w.tree.addRule k.rule (some c)
      (some w.state) w.tokens.position).2, context := some c }
        w.tree.size k.start >>= fun w => pure (.ok w)) = Except.ok (Except.ok w') at h
  generalize (w.tree.addRule k.rule (some c) (some w.state) w.tokens.position).2 = u at hadd hroot h
  split at h
  · rename_i hp
    simp only [enterRecursion, Tree.ruleNode?_of_getElem? hadd.node, bind_eq_ok, pure_eq_ok,
      Except.ok.injEq, exists_eq_left', Option.bind_some] at h
    obtain ⟨_, rfl, rfl⟩ := h
    exact .recurse hp hadd hroot
  · rename_i hp
    simp only [enterRule, Tree.ruleNode?_of_getElem? hadd.node, bind_eq_ok, pure_eq_ok,
      Except.ok.injEq, exists_eq_left', Option.bind_some] at h
    obtain ⟨_, ⟨tree, htree, rfl⟩, rfl⟩ := h
    exact .call (by simpa using hp) (hadd.attaches hroot hin.node htree)

theorem takeEdge_took (hin : w.In c r) (hlt : ∀ p, r.parent = some p → p < c)
    (h : w.takeEdge st e = .ok (.ok w')) : w.Took st c r e w' := by
  cases hs : e.isSilent with
  | false =>
    rw [takeEdge_of_not_isSilent hs] at h
    obtain ⟨hfits, hreads⟩ := takeToken_reads hin h
    exact .token hfits hreads
  | true =>
    cases e with
    | epsilon target returning =>
      simp only [takeEdge] at h
      split at h
      · rename_i d loopback hk
        simp only [bind_eq_ok] at h
        obtain ⟨_, -, h⟩ := h
        split at h
        · obtain rfl := Except.ok.inj (pure_eq_ok.1 h)
          exact .silent rfl rfl
        · simp only [bind_eq_ok, pure_eq_ok, Except.ok.injEq, Fault.ofLookup_eq_ok] at h
          obtain ⟨start, hstart, v, hv, rfl⟩ := h
          obtain ⟨tree, hwraps, rfl⟩ := wrap_eq_ok hin hlt hv
          exact .wrap hk hstart hwraps
      · obtain rfl := Except.ok.inj (pure_eq_ok.1 h)
        exact .silent rfl rfl
    | call k => exact takeEdge_call hin h
    | precedence target level =>
      simp only [takeEdge] at h
      split at h
      · exact nomatch pure_eq_ok.1 h
      · obtain rfl := Except.ok.inj (pure_eq_ok.1 h)
        exact .silent rfl rfl
    | predicate =>
      obtain rfl := Except.ok.inj (pure_eq_ok.1 h)
      exact .silent rfl rfl
    | action =>
      obtain rfl := Except.ok.inj (pure_eq_ok.1 h)
      exact .silent rfl rfl
    | atom | range | set | notSet | wildcard => cases hs

theorem visit_cases (hin : w.In c r) (hlt : ∀ p, r.parent = some p → p < c)
    (h : w.visit = .ok (.ok w')) :
    ∃ st number, w.net.states[w.state]? = some st ∧ w.chooseEdge st = .ok (.ok number) ∧
      ((∃ e v, st.edges[number - 1]? = some e ∧ w.Took st c r e v ∧
      w' = { v with state := e.target }) ∨
        st.edges[number - 1]? = none ∧ (st.rule = none ∧ w' = w ∨
          ∃ rule stop, st.rule = some rule ∧ w.net.ruleStops[rule]? = some stop ∧
          w' = { w with state := stop })) := by
  obtain ⟨st, number, hst, hchoose, ⟨e, v, he, htaken, hw'⟩ | hnone⟩ := visit_eq_ok h
  · exact ⟨st, number, hst, hchoose, .inl ⟨e, v, he, takeEdge_took hin hlt htaken, hw'⟩⟩
  · exact ⟨st, number, hst, hchoose, .inr hnone⟩

theorem noAlternative_of_choose {s : Choice.Setting} {decision : Nat}
    (h : Choice.choose s decision = .ok (.error f)) :
    ∃ i, f = .noAlternative decision s.tokens.position i := by
  have key (fuel : Nat) : ∀ trails i, Choice.chooseFrom s decision fuel trails i = .ok (.error f) →
      ∃ i, f = .noAlternative decision s.tokens.position i := by
    induction fuel with
    | zero => exact nofun
    | succ fuel ih =>
      intro trails i h
      rw [Choice.chooseFrom] at h
      split at h
      · exact nomatch pure_eq_ok.1 h
      · rw [bind_eq_ok] at h
        obtain ⟨next, -, h⟩ := h
        split at h
        · exact ⟨_, (Except.error.inj (pure_eq_ok.1 h)).symm⟩
        · split at h
          · cases pure_eq_ok.1 h
          · exact ih _ _ h
  simp only [Choice.choose, bind_eq_ok] at h
  obtain ⟨_, -, h⟩ := h
  exact key _ _ _ h

/-- The failures of a parse that stands on state `st`: no alternative of a choice fits, the token
does not fit an edge, or the level of a precedence edge is too low. -/
inductive Fails (w : Walker) (st : State) : Failure → Prop
  | choice {i : Nat} : Fails w st (.noAlternative w.state w.tokens.position i)
  | token {e : Edge} {expected : SymbolSet} : e ∈ st.edges → e.isSilent = false →
      Fails w st (.mismatch w.state w.tokens.position expected)
  | level {t rule : Nat} {level : Int} {text : String} : .precedence t level ∈ st.edges →
      level < w.level →
      Fails w st (.predicate w.state rule w.tokens.position text)

theorem takeEdge_fails (he : e ∈ st.edges) (h : w.takeEdge st e = .ok (.error f)) :
    w.Fails st f := by
  cases hs : e.isSilent with
  | false =>
    rw [takeEdge_of_not_isSilent hs] at h
    obtain ⟨-, _, expected, -, rfl⟩ := mismatch_of_takeToken h
    exact .token he hs
  | true =>
    cases e with
    | epsilon target returning =>
      simp only [takeEdge] at h
      split at h
      · rw [bind_eq_ok] at h
        obtain ⟨_, -, h⟩ := h
        split at h <;> simp only [bind_eq_ok, pure_eq_ok, reduceCtorEq, and_false, exists_false]
          at h
      · cases pure_eq_ok.1 h
    | call k =>
      simp only [takeEdge] at h
      split at h <;> simp only [bind_eq_ok, pure_eq_ok, reduceCtorEq, and_false, exists_false] at h
    | precedence target level =>
      simp only [takeEdge] at h
      split at h
      · rename_i hlow
        obtain rfl := Except.error.inj (pure_eq_ok.1 h)
        exact .level he hlow
      · cases pure_eq_ok.1 h
    | predicate | action => cases pure_eq_ok.1 h
    | atom | range | set | notSet | wildcard => cases hs

theorem visit_fails (h : w.visit = .ok (.error f)) :
    ∃ st, w.net.states[w.state]? = some st ∧ w.Fails st f := by
  simp only [visit, bind_eq_ok, Network.state_eq_ok] at h
  obtain ⟨st, hst, choice, hchoice, h⟩ := h
  refine ⟨st, hst, ?_⟩
  split at h
  · obtain rfl := Except.error.inj (pure_eq_ok.1 h)
    unfold chooseEdge at hchoice
    split at hchoice
    · rw [bind_eq_ok] at hchoice
      obtain ⟨_, -, hchoice⟩ := hchoice
      obtain ⟨_, rfl⟩ := noAlternative_of_choose hchoice
      exact .choice
    · cases pure_eq_ok.1 hchoice
  · split at h
    · split at h
      · cases pure_eq_ok.1 h
      · simp only [bind_eq_ok, pure_eq_ok, reduceCtorEq, and_false, exists_false] at h
    · rename_i e he
      rw [bind_eq_ok] at h
      obtain ⟨taken, htaken, h⟩ := h
      split at h
      · obtain rfl := Except.error.inj (pure_eq_ok.1 h)
        exact takeEdge_fails (List.mem_of_getElem? he) htaken
      · cases pure_eq_ok.1 h

theorem failsHere_of_visit (h : w.visit = .ok (.error f)) : w.FailsHere f := by
  obtain ⟨st, -, hfails⟩ := visit_fails h
  cases hfails <;> exact ⟨rfl, rfl⟩

theorem skipTo_induction {P : Walker → Prop} {recovery : SymbolSet} {fuel : Nat}
    (skipped : ∀ v v', P v → v.skipToken = .ok v' → P v') :
    ∀ {v v' : Walker}, P v → skipTo recovery fuel v = .ok v' → P v' := by
  induction fuel with
  | zero => exact fun _ h => nomatch h
  | succ fuel ih =>
    intro v v' hv h
    rw [skipTo] at h
    split at h
    · exact pure_eq_ok.1 h ▸ hv
    · rw [bind_eq_ok] at h
      obtain ⟨u, hu, h⟩ := h
      exact ih (skipped v u hv hu) h

/-- What the failure's own changes keep, and what passing over a token keeps, a failure keeps. -/
theorem fail_induction {P : Walker → Prop} (hin : w.In c r) (h : w.fail f = .ok w')
    (failed : ∀ st stop tree, w.net.states[f.state]? = some st → w.net.ruleStops[st.rule.getD 0]? =
      some stop → w.tree.Sets tree c (.rule { r with failure := some f }) →
      tree.root = w.tree.root → P { w with tree, state := stop, failures := w.failures ++ [f] })
    (noted : ∀ v index states, P v → P { v with lastErrorIndex := index, errorStates := states })
    (skipped : ∀ v v', P v → v.skipToken = .ok v' → P v') : P w' := by
  simp only [fail, hin.context, bind_eq_ok, Network.state_eq_ok, Fault.ofLookup_eq_ok] at h
  obtain ⟨st, hst, stop, hstop, tree, htree, h⟩ := h
  obtain ⟨hset, hroot⟩ := Tree.modifyRule_sets hin.node htree
  have hfailed := failed st stop tree hst hstop hset hroot
  rw [hin.context] at hfailed
  obtain ⟨u, v, recovery, hu, rfl, -, hskip⟩ := recover_eq_ok h
  refine skipTo_induction skipped (noted _ _ _ ?_) hskip
  split at hu
  · exact skipped _ _ hfailed hu
  · exact hu ▸ hfailed

theorem skipToken_reads (hin : w.In c r) (h : w.skipToken = .ok w') :
    w.Reads c r (.error c w.tokens.position) w' := by
  simp only [skipToken, hin.context, bind_eq_ok, pure_eq_ok] at h
  obtain ⟨⟨id, tree⟩, htree, _, rfl, rfl⟩ := h
  exact ⟨tree, Tree.addToken_attaches hin.node htree, by rw [hin.context]⟩

/-- Node `c` is closed, and the parse goes back to its parent and to the state that called. -/
structure Closes (w : Walker) (c : Nat) (r : RuleNode) (precedence : Bool) (w' : Walker) :
    Prop where
  tree : w.tree.Closes w'.tree c r precedence
  rest : w' = { w with
    tree := w'.tree, context := r.parent, state := r.invoking.getD w.state
    levels := if precedence then w.levels.tail else w.levels
    recursions := if precedence then w.recursions.tail else w.recursions }

theorem exitRule_closes (hin : w.In c r) (h : w.exitRule = .ok w') : w.Closes c r false w' := by
  simp only [exitRule, hin.context, Tree.ruleNode?_of_getElem? hin.node, bind_eq_ok, pure_eq_ok,
    Except.ok.injEq, exists_eq_left'] at h
  obtain ⟨tree, htree, rfl⟩ := h
  obtain ⟨hset, hroot⟩ := Tree.modifyRule_sets hin.node htree
  exact ⟨.noted (.inl rfl) hset hroot, rfl⟩

theorem unwind_eq_ok (hin : w.In c r)
    (hp : ∀ p, r.parent = some p → p < c ∧ ∃ q, w.tree.nodes[p]? = some (.rule q))
    (h : unwind { w with recursions := w.recursions.tail } r.parent = .ok w') :
    ∃ tree, w.tree.Closes tree c r true ∧ w' = { w with
      tree, context := r.parent, levels := w.levels.tail, recursions := w.recursions.tail } := by
  simp only [unwind, hin.context, bind_eq_ok] at h
  obtain ⟨u, hu, h⟩ := h
  cases hpar : r.parent with
  | none =>
    simp only [hpar, bind_eq_ok, pure_eq_ok, exists_eq_left'] at h hu
    obtain ⟨hset, hroot⟩ := Tree.modifyRule_sets hin.node hu
    rw [← hpar] at hset
    exact ⟨u, .noted (.inr hpar) hset hroot, h.symm⟩
  | some p =>
    simp only [hpar, bind_eq_ok, pure_eq_ok] at h hu
    obtain ⟨tree, htree, rfl⟩ := h
    obtain ⟨hlt, q, hq⟩ := hp p hpar
    exact ⟨tree, .listed hpar hq (Tree.lists_of_attach hin.node hq (Nat.ne_of_gt hlt) hu htree),
      rfl⟩

theorem followOf_eq_ok {s : Nat} {follow : Option Nat} (h : w.followOf s = .ok follow) :
    ∃ caller,
    w.net.states[s]? = some caller ∧ follow = caller.edges.findSome? fun e =>
    e.call?.map (·.follow) := by
  simp only [followOf, bind_eq_ok, pure_eq_ok, Network.state_eq_ok] at h
  obtain ⟨caller, hcaller, rfl⟩ := h
  exact ⟨caller, hcaller, rfl⟩

/-- The recursion on top is that of node `c`. -/
def Tops (w : Walker) (r : RuleNode) (precedence : Bool) : Prop :=
  precedence = true → w.outer = { context := r.parent, invoking := r.invoking }

theorem visitStop_closes (hin : w.In c r) (hst : w.net.states[w.state]? = some st)
    (hp : ∀ p, r.parent = some p → p < c ∧ ∃ q, w.tree.nodes[p]? = some (.rule q))
    (htop : w.Tops r (w.net.isPrecedenceRule (st.rule.getD 0))) (h : w.visitStop = .ok w') :
    ∃ v caller, w.Closes c r (w.net.isPrecedenceRule (st.rule.getD 0)) v ∧
      w.net.states[v.state]? = some caller ∧
      w' = { v with state := (caller.edges.findSome? fun e =>
      e.call?.map (·.follow)).getD v.state } := by
  rw [visitStop, bind_eq_ok] at h
  obtain ⟨_, hst', h⟩ := h
  obtain rfl := Option.some.inj (hst.symm.trans (Network.state_eq_ok.1 hst'))
  dsimp only at h
  cases hprec : w.net.isPrecedenceRule (st.rule.getD 0) with
  | true =>
    have htop := htop hprec
    simp only [outer] at htop
    simp only [hprec, if_true, htop, bind_eq_ok, pure_eq_ok] at h
    obtain ⟨u, hu, _, rfl, s, hs, rfl⟩ := h
    obtain ⟨tree, htree, rfl⟩ := unwind_eq_ok hin hp hu
    obtain ⟨caller, hcaller, rfl⟩ := followOf_eq_ok hs
    exact ⟨_, caller, ⟨htree, rfl⟩, hcaller, rfl⟩
  | false =>
    simp only [hprec, Bool.false_eq_true, if_false, bind_eq_ok, pure_eq_ok] at h
    obtain ⟨v, hv, s, hs, rfl⟩ := h
    have hcloses := exitRule_closes hin hv
    obtain ⟨caller, hcaller, rfl⟩ := followOf_eq_ok hs
    have hnet : v.net = w.net := by rw [hcloses.rest]
    exact ⟨v, caller, hcloses, hnet ▸ hcaller, rfl⟩

theorem finishRoot_closes (hin : w.In c r)
    (hp : ∀ p, r.parent = some p → p < c ∧ ∃ q, w.tree.nodes[p]? = some (.rule q))
    (htop : w.Tops r (w.net.isPrecedenceRule w.startRule)) (hnone : r.invoking = none)
    (h : w.finishRoot = .ok w') :
    ∃ v, w.Closes c r (w.net.isPrecedenceRule w.startRule) v ∧
      w' = { v with finished := true } := by
  unfold finishRoot at h
  dsimp only at h
  split at h
  · rename_i hprec
    have htop := congrArg Recursion.context (htop hprec)
    have houter : w.recursions.head?.bind (·.context) = w.outer.context := by
      unfold outer
      cases w.recursions.head? <;> rfl
    rw [houter, htop] at h
    simp only [bind_eq_ok, pure_eq_ok] at h
    obtain ⟨u, hu, rfl⟩ := h
    obtain ⟨tree, htree, rfl⟩ := unwind_eq_ok hin hp hu
    refine ⟨_, ⟨hprec.symm ▸ htree, ?_⟩, rfl⟩
    rw [hprec, hnone]
    rfl
  · rename_i hprec
    simp only [bind_eq_ok, pure_eq_ok] at h
    obtain ⟨v, hv, rfl⟩ := h
    have hcloses := exitRule_closes hin hv
    rw [Bool.not_eq_true _ |>.mp hprec]
    exact ⟨v, hcloses, rfl⟩

theorem enterRoot_eq_ok {rule : Nat} (h : w.enterRoot rule = .ok w') : ∃ start tree,
    w.net.ruleStarts[rule]? = some start ∧
    w.tree.Sets tree w.tree.size (.rule { rule, start := w.tokens.position }) ∧
    tree.root = some w.tree.size ∧
    w' = { w with
      tree, startRule := rule, state := start, context := some w.tree.size
      levels := if w.net.isPrecedenceRule rule then 0 :: w.levels else w.levels
      recursions :=
        if w.net.isPrecedenceRule rule then
          { context := w.context, invoking := none } :: w.recursions
        else w.recursions } := by
  have hadd := w.tree.addRule_sets rule none none w.tokens.position
  have hroot : (w.tree.addRule rule none none w.tokens.position).2.root = some w.tree.size := rfl
  simp only [enterRoot, bind_eq_ok, Fault.ofLookup_eq_ok] at h
  obtain ⟨start, hstart, h⟩ := h
  change (if w.net.isPrecedenceRule rule = true then
      enterRecursion
        { w with tree := (w.tree.addRule rule none none w.tokens.position).2, startRule := rule }
        w.tree.size start 0
    else enterRule
        { w with tree := (w.tree.addRule rule none none w.tokens.position).2, startRule := rule }
        w.tree.size start) = Except.ok w' at h
  generalize (w.tree.addRule rule none none w.tokens.position).2 = u at hadd hroot h
  refine ⟨start, u, hstart, hadd, hroot, ?_⟩
  split at h
  · rename_i hp
    simp only [enterRecursion, Tree.ruleNode?_of_getElem? hadd.node, bind_eq_ok, pure_eq_ok,
      Except.ok.injEq, exists_eq_left', Option.bind_some] at h
    rw [← h, if_pos hp, if_pos hp]
  · rename_i hp
    simp only [enterRule, Tree.ruleNode?_of_getElem? hadd.node, bind_eq_ok, pure_eq_ok,
      Except.ok.injEq, exists_eq_left', Option.bind_some] at h
    rw [← h, if_neg hp, if_neg hp]

end Walker

end GrammarWalk
