import GrammarWalk.Proofs.Debug.Parses
import GrammarWalk.Proofs.Parse.Mirror

/-! Tokens off the default channel have no part in a parse. The parse of a list and the parse of its
visible tokens make the same moves, choose the same alternatives and fail at the same states, and
build the same tree but for the places of the tokens. -/

namespace GrammarWalk

namespace Walker

variable {a b : Tokens} {w w' : Walker}

/-- The next move of a parse; a finished parse stays as it is. -/
def proceed (w : Walker) : Except Fault Walker := do
  if w.finished then return w
  let st ← w.net.state w.state
  if st.isRuleStop then
    if ← w.atRoot then w.finishRoot else w.visitStop
  else
    match ← w.visit with
    | .ok w => return w
    | .error f => w.fail f

def proceedFor : Nat → Walker → Except Fault Walker
  | 0, w => return w
  | n + 1, w => do proceedFor n (← w.proceed)

theorem Move.proceed (h : w.Move w') (hf : w.finished = false) : w.proceed = .ok w' := by
  have hstate {st : State} (hst : w.net.states[w.state]? = some st) :
      w.net.state w.state = .ok st :=
    Network.state_eq_ok.2 hst
  unfold Walker.proceed
  rw [if_neg (hf ▸ Bool.false_ne_true)]
  cases h with
  | visit hst hstop hvisit =>
    rw [hstate hst]
    show (if _ then _ else _) = _
    rw [if_neg (hstop ▸ Bool.false_ne_true), hvisit]
    rfl
  | fail hst hstop hvisit hfail =>
    rw [hstate hst]
    show (if _ then _ else _) = _
    rw [if_neg (hstop ▸ Bool.false_ne_true), hvisit]
    exact hfail
  | leave hst hstop hroot hleave =>
    rw [hstate hst]
    show (if _ then _ else _) = _
    rw [if_pos hstop, hroot]
    exact hleave
  | finish hst hstop hroot hfinish =>
    rw [hstate hst]
    show (if _ then _ else _) = _
    rw [if_pos hstop, hroot]
    exact hfinish

theorem proceed_mirror (h : a.Shows b) (hw : w.Over a) :
    Agree Eq (Mirrors a b) w.proceed (w.mirror a b).proceed := by
  unfold proceed
  show Agree Eq _ (if w.finished then _ else _) (if w.finished then _ else _)
  split
  · exact Agree.pure ⟨hw, rfl⟩
  · refine Agree.same (w.net.state w.state) fun st => ?_
    split
    · refine atRoot_mirror.bind fun root root' hroot => ?_
      subst hroot
      cases root with
      | true => exact finishRoot_mirror h hw
      | false => exact visitStop_mirror h hw
    · refine (visit_mirror h hw).bind fun visited visited' hvisited => ?_
      match visited, visited', hvisited with
      | .ok v, .ok v', hv => exact Agree.pure hv
      | .error f, .error f', hf =>
        obtain rfl : f' = f.renumber a.rank := hf
        exact fail_mirror h hw f

theorem proceedFor_mirror (h : a.Shows b) {n : Nat} : ∀ {w : Walker}, w.Over a →
    Agree Eq (Mirrors a b) (proceedFor n w) (proceedFor n (w.mirror a b)) := by
  induction n with
  | zero => exact fun hw => Agree.pure ⟨hw, rfl⟩
  | succ n ih =>
    intro w hw
    refine (proceed_mirror h hw).bind fun v v' hv => ?_
    obtain ⟨hv, rfl⟩ := hv
    exact ih hv

/-- The parse of a list of tokens with a rule, after so many moves. -/
def parseFor (net : Network) (rule n : Nat) (l : List Token) : Except Fault Walker := do
  proceedFor n (← ({ net, tokens := .ofList l } : Walker).enterRoot rule)

/-- Two parses stand at the same point, but for the places of tokens: those of the second are the
numbers that `r` gives to those of the first. -/
structure SamePoint (r : Nat → Nat) (w w' : Walker) : Prop where
  state : w'.state = w.state
  context : w'.context = w.context
  finished : w'.finished = w.finished
  position : w'.tokens.position = r w.tokens.position
  tree : w'.tree = w.tree.renumber r
  failures : w'.failures = w.failures.map (Failure.renumber r)
  choices : ∀ st, Agree Eq (Agree (fun f f' => f' = f.renumber r) Eq) (w.chooseEdge st)
    (w'.chooseEdge st)

/-- The places to read of `a` and all places of `b` correspond to each other in order, and at
corresponding places stands the same token, or the end of input. -/
structure Corresponds (a b : Tokens) : Prop where
  ordered : ∀ i j, a.IsRead i → a.IsRead j → (i < j ↔ a.rank i < a.rank j)
  onto : ∀ k ≤ b.lastIndex, ∃ i, a.IsRead i ∧ a.rank i = k
  token : ∀ i t, a.body[i]? = some t → t.isRead = true → b.get (a.rank i) = t
  last : (a.get a.lastIndex).isEnd = true ∧ (b.get (a.rank a.lastIndex)).isEnd = true

theorem corresponds (h : a.Shows b) : Corresponds a b where
  ordered i j hi hj := by
    have hinj := Tokens.rank_inj hi hj
    have hmono : i ≤ j → a.rank i ≤ a.rank j := fun hij => a.rank_mono hij
    have hmono' : j ≤ i → a.rank j ≤ a.rank i := fun hij => a.rank_mono hij
    omega
  onto := h.exists_rank
  token i t ht hread := h.get_rank ht hread
  last := by
    have hend : (a.get a.lastIndex).isEnd = true := by
      rw [Tokens.get_lastIndex]
      exact Tokens.isEnd_iff.2 h.last
    exact ⟨hend, h.isEnd_rank (.inl rfl) ▸ hend⟩

/-- The parse of a list and that of its visible tokens go through the same points, or fail at the
same move. -/
theorem parseFor_visible (net : Network) (rule n : Nat) (l : List Token) :
    Corresponds (.ofList l) (.ofList (Token.visible l)) ∧
      Agree Eq (SamePoint (Tokens.ofList l).rank) (parseFor net rule n l)
      (parseFor net rule n (Token.visible l)) := by
  have h := Tokens.shows_visible l
  refine ⟨corresponds h, ?_⟩
  let w : Walker := { net, tokens := .ofList l }
  have hw : w.Over (.ofList l) := ⟨rfl, rfl, (Tokens.ready_ofList l).position, by simp [w]⟩
  have hsame : ({ net, tokens := .ofList (Token.visible l) } : Walker) = w.mirror (.ofList l)
      (.ofList (Token.visible l)) := by
    have htree : ({} : Tree).renumber (Tokens.ofList l).rank = {} := by simp [Tree.renumber]
    simp only [mirror, w, ← Tokens.position_ofList, htree]
    rfl
  have hpoint (v v' : Walker) (hv : Mirrors (.ofList l) (.ofList (Token.visible l)) v v') :
      SamePoint (Tokens.ofList l).rank v v' := by
    obtain ⟨hv, rfl⟩ := hv
    exact ⟨rfl, rfl, rfl, rfl, rfl, rfl, fun st => chooseEdge_mirror h hv⟩
  unfold parseFor
  rw [hsame]
  refine ((enterRoot_mirror hw).bind fun v v' hv => ?_).imp hpoint
  obtain ⟨hv, rfl⟩ := hv
  exact proceedFor_mirror h hv

/-- A space before the letter: the parse of both lists is done after as many moves, and the letter
is at place 1 of the first and at place 0 of the second. -/
example :
    let space : Token := { type := 2, channel := 1, start := 0, stop := 1, line := 1, column := 0,
                           index := 0, text := " " }
    let letter : Token := { type := 1, channel := 0, start := 1, stop := 2, line := 1, column := 1,
                            index := 1, text := "a" }
    let leaves (x : Except Fault Walker) :=
      (x.toOption.filter (·.finished)).map fun w => w.tree.nodes[1]?
    leaves (parseFor Session.letterSession.parser 0 3 [space, letter]) = some (some (.leaf 0 1)) ∧
      leaves (parseFor Session.letterSession.parser 0 3 (Token.visible [space, letter])) =
      some (some (.leaf 0 0)) := by
  decide +kernel

theorem proceedFor_succ (n : Nat) :
    ∀ w : Walker, proceedFor (n + 1) w = proceedFor n w >>= proceed := by
  induction n with
  | zero => exact fun w => bind_pure w.proceed
  | succ n ih =>
    intro w
    show w.proceed >>= proceedFor (n + 1) = (w.proceed >>= proceedFor n) >>= proceed
    rw [bind_assoc]
    exact bind_congr ih

theorem parseFor_succ (net : Network) (rule n : Nat) (l : List Token) :
    parseFor net rule (n + 1) l = parseFor net rule n l >>= proceed := by
  rw [parseFor, parseFor, bind_assoc]
  exact bind_congr (proceedFor_succ n)

end Walker

namespace Session

/-- Whatever is asked of a session, its parse is at a point of the parse of some list of tokens. -/
theorem walker_parseFor {net : Network} {s : Session} {w : Walker} (hs : s.Begins net)
    (asks : List Ask) (hw : (asks.foldl answer s).walker = some w) :
    ∃ rule n l, Walker.parseFor net rule n l = .ok w := by
  refine answers_keep (P := fun w => ∃ rule n l, Walker.parseFor net rule n l =
    .ok w) ?_ ?_ hs asks hw
  · intro tokens rule w hroot
    refine ⟨rule, 0, tokens, ?_⟩
    rw [Walker.parseFor, hroot]
    rfl
  · intro w w' _ hf hpoint hmove
    obtain ⟨rule, n, l, hw⟩ := hpoint
    refine ⟨rule, n + 1, l, ?_⟩
    rw [Walker.parseFor_succ, hw]
    exact hmove.proceed hf

/-- After a start and any requests the parse is at a point of the parse of the tokens of the
input. -/
theorem history_parseFor {s : Session} {rule : Nat} {input : String} {requests : List Request}
    {r : Record} {tokens : List Token} {diagnostics : List Diagnostic}
    (h : s.history rule input requests = .ok r)
    (htokens : Tokenizer.tokenize s.lexer input = .ok (tokens, diagnostics)) :
    ∃ n w, r.session.walker = some w ∧ Walker.parseFor s.parser rule n tokens = .ok w := by
  obtain ⟨w, u, hu, hchain⟩ := history_chain h
  obtain ⟨-, _, _, htokens', hroot, rfl⟩ := enter_eq_ok hu
  obtain ⟨rfl, -⟩ := Prod.mk.inj (Except.ok.inj (htokens.symm.trans htokens'))
  suffices hpoint : r.core.parser = s.parser ∧ ∃ n w, r.core.walker = some w ∧ w.net = s.parser ∧
      Walker.parseFor s.parser rule n tokens = .ok w by
    obtain ⟨-, n, w, hw, -, hparse⟩ := hpoint
    exact ⟨n, w, hw, hparse⟩
  generalize r.core = t at hchain
  induction hchain with
  | refl =>
    exact ⟨rfl, 0, w, rfl, (Walker.continues_enterRoot hroot).net, bind_eq_ok.2 ⟨w, hroot, rfl⟩⟩
  | tail _ hnext ih =>
    obtain ⟨hparser, n, w, hw, hnet, hparse⟩ := ih
    obtain ⟨v, hv, hf, hstep⟩ := hnext
    obtain rfl := Option.some.inj (hw.symm.trans hv)
    obtain ⟨⟨stop, u⟩, hstep', rfl⟩ := map_eq_ok.1 hstep
    obtain ⟨hkeep, w', hw', hmove⟩ := step_move (hparser.trans hnet.symm) hstep'
    refine ⟨hkeep.trans hparser, n + 1, w', hw', hmove.net.trans hnet, ?_⟩
    rw [Walker.parseFor_succ, hparse]
    exact hmove.proceed hf

end Session

end GrammarWalk
