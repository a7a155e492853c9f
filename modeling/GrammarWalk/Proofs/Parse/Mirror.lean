import GrammarWalk.Proofs.Outcome
import GrammarWalk.Proofs.Parse.Renumber

/-! A parse over the tokens that are read of a list does what the parse over the list does: from two
walkers that differ in the places of tokens only, every move leads to two such walkers, or fails in
both. -/

namespace GrammarWalk

variable {a b : Tokens}

namespace Choice

variable {s : Setting} {t : Trail} {f : Front}

theorem close_tokens (s : Setting) (ts : Tokens) {fuel : Nat} :
    ∀ {t : Trail} {f : Front}, close { s with tokens := ts } fuel t f = close s fuel t f := by
  induction fuel with
  | zero => exact rfl
  | succ fuel ih =>
    intro t f
    unfold close
    simp only [ih]

theorem send_tokens (s : Setting) (ts : Tokens) (symbol : Int) :
    send { s with tokens := ts } symbol = send s symbol := by
  funext f t
  unfold send
  simp only [close_tokens]
  rfl

theorem step_tokens (s : Setting) (ts : Tokens) (trails : List Trail) (symbol : Int) :
    step { s with tokens := ts } trails symbol = step s trails symbol := by
  rw [step, step, send_tokens]

theorem start_tokens (s : Setting) (ts : Tokens) (decision : Nat) :
    start { s with tokens := ts } decision = start s decision := by
  unfold start
  simp only [close_tokens]
  rfl

abbrev SameChoice (a : Tokens) :
    Except Fault (Except Failure Nat) → Except Fault (Except Failure Nat) → Prop :=
  Agree Eq (Agree (fun f f' => f' = f.renumber a.rank) Eq)

theorem chooseFrom_mirror (h : a.Shows b) {p decision m : Nat} :
    ∀ {m' i : Nat} {trails : List Trail}, a.IsRead i →
    0 < m → a.lastIndex < i + m → 0 < m' → b.lastIndex < a.rank i + m' →
    SameChoice a (chooseFrom { s with tokens := { a with position := p } } decision m trails i)
      (chooseFrom { s with tokens := { b with position := a.rank p } } decision m' trails
      (a.rank i)) := by
  induction m with
  | zero => exact fun _ hm => absurd hm (lt_irrefl 0)
  | succ m ih =>
    intro m' i trails hi _ hm hm' hb
    obtain ⟨m', rfl⟩ := Nat.exists_eq_succ_of_ne_zero hm'.ne'
    have htype : (b.get (a.rank i)).type = (a.get i).type := h.type_rank hi
    unfold chooseFrom
    cases settled? trails with
    | some alternative => exact Agree.pure rfl
    | none =>
      show Agree Eq _ (step _ _ (a.get i).type >>= _) (step _ _ (b.get (a.rank i)).type >>= _)
      rw [step_tokens s { a with position := p }, step_tokens s { b with position := a.rank p },
        htype]
      refine Agree.same _ fun next => ?_
      dsimp only
      split
      · exact Agree.pure rfl
      · show Agree Eq _ (if (a.get i).type = Symbol.eof then _
          else chooseFrom _ _ _ _ (a.nextRead (i + 1)))
          (if (b.get (a.rank i)).type = Symbol.eof then _
            else chooseFrom _ _ _ _ (b.nextRead (a.rank i + 1)))
        rw [htype]
        split
        · exact Agree.pure rfl
        · rename_i hend
          have hend : (a.get i).isEnd = false := by simpa [Token.isEnd] using hend
          obtain ⟨hlt, hlt'⟩ := h.lt_lastIndex hi hend
          have hle : i + 1 ≤ a.nextRead (i + 1) := Tokens.le_nextRead hlt
          have hrank : a.rank (a.nextRead (i + 1)) = a.rank i + 1 := by
            rw [Tokens.rank_nextRead hlt, Tokens.rank_succ, if_pos (Tokens.isRead_get hi hlt)]
          rw [← h.nextRead_rank hi hend]
          exact ih (Tokens.nextRead_spec a _).1 (by omega) (by omega) (by omega) (by omega)

theorem choose_mirror (h : a.Shows b) {p decision : Nat} (hp : a.IsRead p) :
    SameChoice a (choose { s with tokens := { a with position := p } } decision)
      (choose { s with tokens := { b with position := a.rank p } } decision) := by
  unfold choose
  rw [start_tokens s { a with position := p }, start_tokens s { b with position := a.rank p }]
  refine Agree.same _ fun trails => ?_
  have hsize : a.size = a.lastIndex + 1 := rfl
  have hsize' : b.size = b.lastIndex + 1 := rfl
  exact chooseFrom_mirror h hp (Nat.succ_pos _) (by show _ < _ + (a.size + 1); omega)
    (Nat.succ_pos _)
    (by show _ < _ + (b.size + 1); omega)

end Choice

namespace Walker

/-- The walker that stands where `w` does, before the tokens `b` that are read of the tokens `a`. -/
def mirror (a b : Tokens) (w : Walker) : Walker :=
  { w with
    tokens := { b with position := a.rank w.tokens.position }
    tree := w.tree.renumber a.rank
    lastErrorIndex := w.lastErrorIndex.map a.rank
    failures := w.failures.map (Failure.renumber a.rank) }

/-- The parse is over the tokens `a`, and has been to places to read only. -/
structure Over (a : Tokens) (w : Walker) : Prop where
  body : w.tokens.body = a.body
  last : w.tokens.last = a.last
  position : a.IsRead w.tokens.position
  lastError : ∀ i, w.lastErrorIndex = some i → a.IsRead i

/-- The walker over the tokens `b` does what the one over the tokens `a` does. -/
def Mirrors (a b : Tokens) (w w' : Walker) : Prop := w.Over a ∧ w' = w.mirror a b

variable {w : Walker} {st : State} {e : Edge}

theorem Over.tokens_eq (hw : w.Over a) : w.tokens = { a with position := w.tokens.position } := by
  obtain ⟨hbody, hlast, -, -⟩ := hw
  cases htokens : w.tokens
  simp_all

theorem Over.get (hw : w.Over a) : w.tokens.get = a.get := by
  rw [hw.tokens_eq]
  rfl

theorem Over.of_eq {w' : Walker} (hw : w.Over a) (htokens : w'.tokens = w.tokens)
    (herror : w'.lastErrorIndex = w.lastErrorIndex) : w'.Over a :=
  ⟨htokens ▸ hw.body, htokens ▸ hw.last, htokens ▸ hw.position, herror ▸ hw.lastError⟩

theorem contextNode?_mirror :
    Agree Eq (fun n n' => n' = n.map (RuleNode.renumber a.rank)) w.contextNode?
    (w.mirror a b).contextNode? := by
  have hcontext : (w.mirror a b).context = w.context := rfl
  unfold contextNode?
  rw [hcontext]
  cases w.context with
  | none => exact Agree.pure rfl
  | some node => exact Tree.ruleNode?_renumber node

theorem atRoot_mirror : Agree Eq Eq w.atRoot (w.mirror a b).atRoot := by
  refine contextNode?_mirror.bind fun n n' hn => Agree.pure ?_
  subst hn
  cases n <;> rfl

theorem followFrom_mirror {depth : Nat} : ∀ {node : Option Nat},
    Agree Eq Eq (w.followFrom depth node) ((w.mirror a b).followFrom depth node) := by
  induction depth with
  | zero =>
    intro node
    cases node <;> exact agree_refl _
  | succ depth ih =>
    intro node
    cases node with
    | none => exact agree_refl _
    | some node =>
      unfold followFrom
      refine (Tree.ruleNode?_renumber node).bind fun n n' hn => ?_
      subst hn
      cases n with
      | none => exact Agree.pure rfl
      | some n =>
        have hrest (follow : Option Nat) : Agree Eq Eq
            (w.followFrom depth n.parent >>= fun rest => pure (follow.toList ++ rest))
            ((w.mirror a b).followFrom depth n.parent >>= fun rest =>
                pure (follow.toList ++ rest)) :=
          ih.bind fun _ _ hrest => hrest ▸ agree_refl _
        have hinvoking : (n.renumber a.rank).invoking = n.invoking := rfl
        dsimp only [Option.map]
        rw [hinvoking]
        cases n.invoking with
        | none => exact hrest none
        | some s => exact Agree.same (w.followOf s) hrest

theorem followStates_mirror : Agree Eq Eq w.followStates (w.mirror a b).followStates := by
  have hsize : (w.mirror a b).tree.size = w.tree.size := Tree.size_renumber w.tree
  unfold followStates
  rw [hsize]
  exact followFrom_mirror.bind fun _ _ h => h ▸ agree_refl _

theorem enterRule_mirror (hw : w.Over a) {node start : Nat} :
    Agree Eq (Mirrors a b) (w.enterRule node start) ((w.mirror a b).enterRule node start) := by
  refine (Tree.ruleNode?_renumber node).bind fun n n' hn => ?_
  have hparent : n'.bind (·.parent) = n.bind (·.parent) := by
    subst hn
    cases n <;> rfl
  dsimp only
  rw [hparent]
  cases n.bind (·.parent) with
  | none => exact Agree.pure ⟨hw.of_eq rfl rfl, rfl⟩
  | some parent =>
    refine (Tree.attach_renumber parent node).bind fun u u' hu => Agree.pure ⟨hw.of_eq rfl rfl, ?_⟩
    rw [hu]
    rfl

theorem enterRecursion_mirror (hw : w.Over a) {node start : Nat} {level : Int} :
    Agree Eq (Mirrors a b) (w.enterRecursion node start level)
      ((w.mirror a b).enterRecursion node start level) := by
  refine (Tree.ruleNode?_renumber node).bind fun n n' hn => Agree.pure ⟨hw.of_eq rfl rfl, ?_⟩
  subst hn
  cases n <;> rfl

theorem enterRoot_mirror (hw : w.Over a) {rule : Nat} :
    Agree Eq (Mirrors a b) (w.enterRoot rule) ((w.mirror a b).enterRoot rule) := by
  refine Agree.same (Fault.ofLookup w.net.ruleStarts[rule]?) fun start => ?_
  have hroot : (w.mirror a b).tree.addRule rule none none (w.mirror a b).tokens.position = _ :=
    Tree.addRule_renumber
  have hnet : (w.mirror a b).net = w.net := rfl
  rw [hroot]
  dsimp only
  rw [hnet]
  let v : Walker :=
    { w with tree := (w.tree.addRule rule none none w.tokens.position).2, startRule := rule }
  have hv : v.Over a := hw.of_eq rfl rfl
  split
  · exact enterRecursion_mirror hv
  · exact enterRule_mirror hv

theorem recoverySet_mirror : Agree Eq Eq w.recoverySet (w.mirror a b).recoverySet := by
  refine followStates_mirror.bind fun follow follow' hfollow => ?_
  subst hfollow
  exact agree_refl _

section shown

variable (h : a.Shows b)

include h

theorem previous?_mirror (hw : w.Over a) :
    (w.mirror a b).tokens.previous? = w.tokens.previous?.map a.rank := by
  have hread : w.tokens.lastRead w.tokens.position = a.lastRead w.tokens.position := by
    rw [Tokens.lastRead, Tokens.lastRead, hw.get]
  exact (h.lastRead_rank (Tokens.isRead_le hw.position)).trans
    (congrArg (Option.map a.rank) hread.symm)

theorem ahead_mirror (hw : w.Over a) : (w.mirror a b).tokens.ahead = w.tokens.ahead := by
  show (b.get (a.rank w.tokens.position)).type = (w.tokens.get w.tokens.position).type
  rw [h.type_rank hw.position, hw.get]

theorem advance_mirror (hw : w.Over a) {tree : Tree} {context : Option Nat} :
    Mirrors a b { w with tree, context, tokens := w.tokens.advance }
      { w.mirror a b with
        tree := tree.renumber a.rank, context, tokens := (w.mirror a b).tokens.advance } := by
  have hend : (w.mirror a b).tokens.current.isEnd = w.tokens.current.isEnd := by
    rw [Token.isEnd, Token.isEnd]
    exact congrArg (· == Symbol.eof) (ahead_mirror h hw)
  unfold Tokens.advance
  rw [hend]
  split
  · exact ⟨hw.of_eq rfl rfl, rfl⟩
  · rename_i hnot
    have hnot : (a.get w.tokens.position).isEnd = false := by
      rw [← hw.get]
      exact Bool.eq_false_iff.2 hnot
    have hnext : w.tokens.nextRead (w.tokens.position + 1) =
        a.nextRead (w.tokens.position + 1) := by
      rw [hw.tokens_eq]
      rfl
    have hover : Over a
        { w with
          tree, context
          tokens := { w.tokens with position := w.tokens.nextRead (w.tokens.position + 1) } } :=
      ⟨hw.body, hw.last, hnext ▸ (Tokens.nextRead_spec a _).1, hw.lastError⟩
    refine ⟨hover, ?_⟩
    have hrank := h.nextRead_rank hw.position hnot
    rw [← hnext] at hrank
    simp only [mirror, hrank]
    rfl

theorem wrap_mirror (hw : w.Over a) {start : Nat} :
    Agree Eq (Mirrors a b) (w.wrap start) ((w.mirror a b).wrap start) := by
  refine contextNode?_mirror.bind fun n n' hn => ?_
  subst hn
  have hcontext : (w.mirror a b).context = w.context := rfl
  rw [hcontext, previous?_mirror h hw]
  cases w.context with
  | none => exact Agree.pure ⟨hw, rfl⟩
  | some previous =>
    cases n with
    | none => exact Agree.pure ⟨hw, rfl⟩
    | some n =>
      have hrule (parent invoking : Option Nat) :
          (w.mirror a b).tree.addRule n.rule parent invoking (a.rank n.start) = _ :=
        Tree.addRule_renumber
      dsimp only [Option.map, RuleNode.renumber]
      rw [hrule]
      refine (Tree.reparent_renumber previous _).bind fun u u' hu => ?_
      subst hu
      refine (Tree.modifyRule_renumber (fun _ => by rfl) previous).bind fun v v' hv => ?_
      subst hv
      exact Agree.pure ⟨hw.of_eq rfl rfl, rfl⟩

theorem unwind_mirror (hw : w.Over a) {parent : Option Nat} :
    Agree Eq (Mirrors a b) (w.unwind parent) ((w.mirror a b).unwind parent) := by
  have hclose (done : Nat) : Agree Eq (fun u u' => u' = u.renumber a.rank)
      (w.tree.modifyRule done fun n => { n with stop := w.tokens.previous?, parent })
      ((w.mirror a b).tree.modifyRule done fun n =>
          { n with stop := (w.mirror a b).tokens.previous?, parent }) := by
    rw [previous?_mirror h hw]
    exact Tree.modifyRule_renumber (fun _ => by rfl) done
  unfold unwind
  have hcontext : (w.mirror a b).context = w.context := rfl
  dsimp only
  rw [hcontext]
  cases w.context with
  | none => exact Agree.pure ⟨hw.of_eq rfl rfl, rfl⟩
  | some done =>
    refine (hclose done).bind fun u u' hu => ?_
    subst hu
    cases parent with
    | none => exact Agree.pure ⟨hw.of_eq rfl rfl, rfl⟩
    | some parent =>
      refine (Tree.attach_renumber parent done).bind fun v v' hv =>
        Agree.pure ⟨hw.of_eq rfl rfl, ?_⟩
      subst hv
      rfl

theorem exitRule_mirror (hw : w.Over a) :
    Agree Eq (Mirrors a b) w.exitRule (w.mirror a b).exitRule := by
  have hclose (node : Nat) : Agree Eq (fun u u' => u' = u.renumber a.rank)
      (w.tree.modifyRule node fun n => { n with stop := w.tokens.previous? })
      ((w.mirror a b).tree.modifyRule node fun n =>
          { n with stop := (w.mirror a b).tokens.previous? }) := by
    rw [previous?_mirror h hw]
    exact Tree.modifyRule_renumber (fun _ => by rfl) node
  unfold exitRule
  have hcontext : (w.mirror a b).context = w.context := rfl
  rw [hcontext]
  cases w.context with
  | none => exact Agree.pure ⟨hw, rfl⟩
  | some node =>
    refine (Tree.ruleNode?_renumber node).bind fun n n' hn => ?_
    subst hn
    cases n with
    | none => exact Agree.pure ⟨hw.of_eq rfl rfl, rfl⟩
    | some n =>
      refine (hclose node).bind fun u u' hu => Agree.pure ⟨hw.of_eq rfl rfl, ?_⟩
      subst hu
      rfl

omit h in
theorem Mirrors.goTo {w' v : Walker} (hw : Mirrors a b v w') (s : Nat) :
    Mirrors a b { v with state := s } { w' with state := s } := by
  obtain ⟨hv, rfl⟩ := hw
  exact ⟨hv.of_eq rfl rfl, rfl⟩

theorem finishRoot_mirror (hw : w.Over a) :
    Agree Eq (Mirrors a b) w.finishRoot (w.mirror a b).finishRoot := by
  have hdone (x x' : Except Fault Walker) (hx : Agree Eq (Mirrors a b) x x') :
    Agree Eq (Mirrors a b)
      (x >>= fun w => pure { w with finished := true })
          (x' >>= fun w => pure { w with finished := true }) := by
    refine hx.bind fun v v' hv => Agree.pure ?_
    obtain ⟨hv, rfl⟩ := hv
    exact ⟨hv.of_eq rfl rfl, rfl⟩
  unfold finishRoot
  show Agree Eq _ (if w.net.isPrecedenceRule w.startRule then _ else _)
    (if w.net.isPrecedenceRule w.startRule then _ else _)
  split
  · exact hdone _ _ (unwind_mirror h (w := { w with recursions := w.recursions.tail })
      (hw.of_eq rfl rfl))
  · exact hdone _ _ (exitRule_mirror h hw)

theorem visitStop_mirror (hw : w.Over a) :
    Agree Eq (Mirrors a b) w.visitStop (w.mirror a b).visitStop := by
  have hgo (v v' : Walker) (hv : Mirrors a b v v') : Agree Eq (Mirrors a b)
      (v.followOf v.state >>= fun follow => pure { v with state := follow.getD v.state })
      (v'.followOf v'.state >>= fun follow => pure { v' with state := follow.getD v'.state }) := by
    obtain ⟨hover, rfl⟩ := hv
    exact Agree.same (v.followOf v.state) fun follow => Agree.pure (Mirrors.goTo ⟨hover, rfl⟩ _)
  refine Agree.same (w.net.state w.state) fun st => ?_
  show Agree Eq _ (if w.net.isPrecedenceRule (st.rule.getD 0) then _ else _)
    (if w.net.isPrecedenceRule (st.rule.getD 0) then _ else _)
  split
  · let v : Walker := { w with recursions := w.recursions.tail }
    have hv : v.Over a := hw.of_eq rfl rfl
    exact (unwind_mirror h hv).bind fun u u' hu => by
      obtain ⟨hover, rfl⟩ := hu
      exact hgo _ _ (Mirrors.goTo ⟨hover, rfl⟩ _)
  · exact (exitRule_mirror h hw).bind hgo

abbrev SameVisit (a b : Tokens) :
    Except Fault (Except Failure Walker) → Except Fault (Except Failure Walker) → Prop :=
  Agree Eq (Agree (fun f f' => f' = f.renumber a.rank) (Mirrors a b))

theorem takeToken_mirror (hw : w.Over a) {fits : Int → Bool} :
    SameVisit a b (w.takeToken fits) ((w.mirror a b).takeToken fits) := by
  unfold takeToken
  rw [ahead_mirror h hw]
  have hcontext : (w.mirror a b).context = w.context := rfl
  rw [hcontext]
  split
  · cases w.context with
    | none => exact Agree.pure (advance_mirror h hw)
    | some node =>
      refine (Tree.addToken_renumber node (.leaf node w.tokens.position)).bind fun u u' hu => ?_
      subst hu
      exact Agree.pure (advance_mirror h hw)
  · refine followStates_mirror.bind fun follow follow' hfollow => ?_
    subst hfollow
    exact Agree.same (w.net.expectedSymbols w.state follow) fun expected => Agree.pure rfl

theorem takeEdge_mirror (hw : w.Over a) :
    SameVisit a b (w.takeEdge st e) ((w.mirror a b).takeEdge st e) := by
  have hdone {x x' : Except Fault Walker} (hx : Agree Eq (Mirrors a b) x x') :
      SameVisit a b (x >>= fun w => pure (.ok w)) (x' >>= fun w => pure (.ok w)) :=
    hx.bind fun v v' hv => Agree.pure hv
  have hstay : SameVisit a b (pure (.ok w)) (pure (.ok (w.mirror a b))) := Agree.pure ⟨hw, rfl⟩
  unfold takeEdge
  cases e with
  | epsilon target _ =>
    dsimp only
    split
    · refine Agree.same (w.net.state target) fun next => ?_
      split
      · exact hstay
      · exact Agree.same (Fault.ofLookup w.net.ruleStarts[st.rule.getD 0]?) fun start =>
          hdone (wrap_mirror h hw)
    · exact hstay
  | atom | range | set | notSet | wildcard => exact takeToken_mirror h hw
  | call c =>
    have hcall : (w.mirror a b).tree.addRule c.rule w.context (some w.state)
        (w.mirror a b).tokens.position = _ :=
      Tree.addRule_renumber
    let v : Walker :=
      { w with tree := (w.tree.addRule c.rule w.context (some w.state) w.tokens.position).2 }
    have hv : v.Over a := hw.of_eq rfl rfl
    have hleft : (w.mirror a b).context = w.context ∧ (w.mirror a b).state = w.state := ⟨rfl, rfl⟩
    dsimp only
    rw [hleft.1, hleft.2, hcall]
    show SameVisit a b (if w.net.isPrecedenceRule c.rule then _ else _)
      (if w.net.isPrecedenceRule c.rule then _ else _)
    split
    · exact hdone (enterRecursion_mirror hv)
    · exact hdone (enterRule_mirror hv)
  | precedence _ level =>
    show SameVisit a b (if level < w.level then _ else _) (if level < w.level then _ else _)
    split
    · exact Agree.pure rfl
    · exact hstay
  | predicate | action => exact hstay

theorem chooseEdge_mirror (hw : w.Over a) :
    Choice.SameChoice a (w.chooseEdge st) ((w.mirror a b).chooseEdge st) := by
  unfold chooseEdge
  split
  · refine followStates_mirror.bind fun follow follow' hfollow => ?_
    subst hfollow
    let s : Choice.Setting :=
      { net := w.net, tokens := w.tokens, follow := follow.toArray, precedence := w.level }
    show Choice.SameChoice a (Choice.choose { s with tokens := w.tokens } w.state) _
    rw [hw.tokens_eq]
    exact Choice.choose_mirror (s := s) h hw.position
  · exact Agree.pure rfl

theorem visit_mirror (hw : w.Over a) : SameVisit a b w.visit (w.mirror a b).visit := by
  refine Agree.same (w.net.state w.state) fun st => ?_
  refine (chooseEdge_mirror h hw).bind fun choice choice' hchoice => ?_
  match choice, choice', hchoice with
  | .error f, .error f', hf => exact Agree.pure hf
  | .ok number, .ok number', hnumber =>
    obtain rfl : number = number' := hnumber
    dsimp only
    cases st.edges[number - 1]? with
    | none =>
      cases st.rule with
      | none => exact Agree.pure ⟨hw, rfl⟩
      | some rule =>
        exact Agree.same (Fault.ofLookup w.net.ruleStops[rule]?) fun stop =>
          Agree.pure (Mirrors.goTo ⟨hw, rfl⟩ stop)
    | some e =>
      refine (takeEdge_mirror h hw).bind fun taken taken' htaken => ?_
      match taken, taken', htaken with
      | .error f, .error f', hf => exact Agree.pure hf
      | .ok v, .ok v', hv => exact Agree.pure (Mirrors.goTo hv e.target)

theorem skipToken_mirror (hw : w.Over a) :
    Agree Eq (fun v v' => Mirrors a b v v' ∧ v.tokens = w.tokens.advance) w.skipToken
      (w.mirror a b).skipToken := by
  unfold skipToken
  have hcontext : (w.mirror a b).context = w.context := rfl
  rw [hcontext]
  cases w.context with
  | none => exact Agree.pure ⟨advance_mirror h hw, rfl⟩
  | some node =>
    refine (Tree.addToken_renumber node (.error node w.tokens.position)).bind fun u u' hu => ?_
    subst hu
    exact Agree.pure ⟨advance_mirror h hw, rfl⟩

theorem skipTo_mirror {recovery : SymbolSet} {m : Nat} :
    ∀ {m' : Nat} {w : Walker}, w.Over a → 0 < m →
    a.lastIndex < w.tokens.position + m → 0 < m' → b.lastIndex < a.rank w.tokens.position + m' →
    Agree Eq (Mirrors a b) (skipTo recovery m w) (skipTo recovery m' (w.mirror a b)) := by
  induction m with
  | zero => exact fun _ hm => absurd hm (lt_irrefl 0)
  | succ m ih =>
    intro m' w hw _ hm hm' hb
    obtain ⟨m', rfl⟩ := Nat.exists_eq_succ_of_ne_zero hm'.ne'
    unfold skipTo
    rw [ahead_mirror h hw]
    split
    · exact Agree.pure ⟨hw, rfl⟩
    · rename_i hgo
      have hend : (a.get w.tokens.position).isEnd = false := by
        rw [← hw.get]
        exact Bool.eq_false_iff.2 fun hend => hgo (.inl (Tokens.isEnd_iff.1 hend))
      obtain ⟨hlt, hlt'⟩ := h.lt_lastIndex hw.position hend
      refine (skipToken_mirror h hw).bind fun v v' hv => ?_
      obtain ⟨⟨hv, rfl⟩, htokens⟩ := hv
      have hposition : v.tokens.position = a.nextRead (w.tokens.position + 1) := by
        have hcurrent : w.tokens.current.isEnd = false := by
          rw [Tokens.current, hw.get, hend]
        rw [htokens, Tokens.advance, hcurrent, hw.tokens_eq]
        rfl
      have hle : w.tokens.position + 1 ≤ v.tokens.position := hposition ▸ Tokens.le_nextRead hlt
      have hrank : a.rank v.tokens.position = a.rank w.tokens.position + 1 := by
        rw [hposition, Tokens.rank_nextRead hlt, Tokens.rank_succ,
          if_pos (Tokens.isRead_get hw.position hlt)]
      exact ih hv (by omega) (by omega) (by omega) (by omega)

theorem recover_mirror (hw : w.Over a) :
    Agree Eq (Mirrors a b) w.recover (w.mirror a b).recover := by
  let failed (v : Walker) (index : Nat) : Walker :=
    { v with lastErrorIndex := some index, errorStates := v.errorStates.insert v.state }
  have hgo (v v' : Walker) (hv : Mirrors a b v v') : Agree Eq (Mirrors a b)
      ((failed v w.tokens.position).recoverySet >>= fun recovery =>
        skipTo recovery ((failed v w.tokens.position).tokens.size + 1) (failed v w.tokens.position))
      ((failed v' (a.rank w.tokens.position)).recoverySet >>= fun recovery =>
        skipTo recovery ((failed v' (a.rank w.tokens.position)).tokens.size + 1)
          (failed v' (a.rank w.tokens.position))) := by
    obtain ⟨hv, rfl⟩ := hv
    have hover : (failed v w.tokens.position).Over a :=
      ⟨hv.body, hv.last, hv.position, fun i hi => Option.some.inj hi ▸ hw.position⟩
    refine recoverySet_mirror.bind fun recovery recovery' hrecovery => ?_
    subst hrecovery
    have hsize : (failed v w.tokens.position).tokens.size = a.lastIndex + 1 :=
      congrArg (·.size + 1) hv.body
    have hsize' : (failed (v.mirror a b) (a.rank w.tokens.position)).tokens.size =
      b.lastIndex + 1 := rfl
    rw [hsize, hsize']
    exact skipTo_mirror h hover (by omega) (by omega) (by omega) (by omega)
  have htried : ((w.mirror a b).lastErrorIndex = some (w.mirror a b).tokens.position ∧
      (w.mirror a b).state ∈ (w.mirror a b).errorStates) ↔
      (w.lastErrorIndex = some w.tokens.position ∧ w.state ∈ w.errorStates) := by
    refine and_congr_left' ?_
    show w.lastErrorIndex.map a.rank = some (a.rank w.tokens.position) ↔ _
    cases hlast : w.lastErrorIndex with
    | none => simp
    | some i =>
      simp only [Option.map_some, Option.some.injEq]
      exact Tokens.rank_inj (hw.lastError i hlast) hw.position
  unfold recover
  simp only [htried]
  split
  · exact (skipToken_mirror h hw).bind fun v v' hv => hgo v v' hv.1
  · exact hgo w _ ⟨hw, rfl⟩

theorem fail_mirror (hw : w.Over a) (f : Failure) :
    Agree Eq (Mirrors a b) (w.fail f) ((w.mirror a b).fail (f.renumber a.rank)) := by
  have hgo (stop : Nat) (context : Option Nat) (tree : Tree) : Agree Eq (Mirrors a b)
      (recover { w with tree, context, state := stop, failures := w.failures ++ [f] })
      (recover { w.mirror a b with
        tree := tree.renumber a.rank, context, state := stop
        failures := (w.mirror a b).failures ++ [f.renumber a.rank] }) := by
    let v : Walker := { w with tree, context, state := stop, failures := w.failures ++ [f] }
    have hv : v.Over a := hw.of_eq rfl rfl
    have hsame : v.mirror a b = { w.mirror a b with
        tree := tree.renumber a.rank, context, state := stop
        failures := (w.mirror a b).failures ++ [f.renumber a.rank] } := by
      simp [v, mirror]
    exact hsame ▸ recover_mirror h hv
  unfold fail
  rw [Failure.state_renumber]
  refine Agree.same (w.net.state f.state) fun st => ?_
  refine Agree.same (Fault.ofLookup w.net.ruleStops[st.rule.getD 0]?) fun stop => ?_
  have hcontext : (w.mirror a b).context = w.context := rfl
  rw [hcontext]
  cases w.context with
  | none => exact hgo stop none w.tree
  | some node =>
    refine (Tree.modifyRule_renumber (fun _ => by rfl) node).bind fun u u' hu => ?_
    subst hu
    exact hgo stop (some node) u

end shown

end Walker

end GrammarWalk
