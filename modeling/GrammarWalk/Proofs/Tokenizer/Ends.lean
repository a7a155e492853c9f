import GrammarWalk.Proofs.Tokenizer.Rounds

/-! Tokenizing comes to an end, if no action is met again without input. There are then only so many
threads, with and without the mark of a non-greedy decision, and no search looks at one of them
twice. An action that leads back to itself makes a new thread each time round, so that a search
which goes that way first does not come back. -/

namespace GrammarWalk.Tokenizer

open Network Relation

variable {net : Network} {t x y : Thread} {st : State} {e : Edge} {f f' f'' : Front} {symbol : Int}
  {mode n fuel : Nat} {threads : List Thread} {best : Option Match} {text : List Char}
    {accepted : Bool}

section marks

/-- What a thread can come to without input, whatever decisions it passes. -/
def Reaches (net : Network) (t x : Thread) : Prop := ReflTransGen (Moves net) t.unmarked x.unmarked

theorem Reaches.placed (hw : net.Wired) (h : Reaches net t x) (ht : t.Placed net) : x.Placed net :=
  inRange_of_reaches hw h ht

/-- The mark makes no more than two threads out of one, for which the bound on closing leaves
room. -/
theorem ncard_reaches_lt (hw : net.Wired) (ha : net.ActionsAdvance) (ht : t.Placed net) :
    {x | Reaches net t x}.Finite ∧ {x | Reaches net t x}.ncard < closeBound net := by
  have hinj (x y : Thread) (hx : Reaches net t x) (hy : Reaches net t y)
      (hxy : (x.passedNonGreedy, code net t.commands.length x) =
        (y.passedNonGreedy, code net t.commands.length y)) :
      x = y := by
    obtain ⟨hmark, hcode⟩ := Prod.mk.inj hxy
    have hsame : x.unmarked = y.unmarked := eq_of_code hw ha ht hx hy hcode
    obtain ⟨⟩ := x
    obtain ⟨⟩ := y
    simp_all [Thread.unmarked]
  obtain ⟨hfin, hle⟩ := ncard_le_of_code (P := Reaches net t)
    (fun x => (x.passedNonGreedy, code net t.commands.length x)) (fun x hx => Finset.mem_product.2
      ⟨Finset.mem_univ _, code_mem_codes (t := t.unmarked) (x := x.unmarked) hw ha ht hx⟩) hinj
  refine ⟨hfin, hle.trans_lt ?_⟩
  rw [Finset.card_product, card_codes, Finset.card_univ, Fintype.card_bool]
  calc 2 * (net.states.size + net.edgeCount + 2) ^ (1 + maxCalls + net.edgeCount)
      ≤ (net.states.size + net.edgeCount + 2) * (net.states.size + net.edgeCount + 2) ^
          (1 + maxCalls + net.edgeCount) :=
        Nat.mul_le_mul_right _ (by omega)
    _ = (net.states.size + net.edgeCount + 2) ^ (1 + maxCalls + net.edgeCount + 1) := by
      rw [Nat.pow_succ, Nat.mul_comm]
    _ < closeBound net := Nat.pow_lt_pow_right (by omega) (by omega)

end marks

section ends

/-- Closing over a thread comes back when its bound exceeds the number of threads that are left to
see. -/
theorem returns_close_of_unseen (hw : net.Wired) (ht : t.Placed net)
    (hfin : {x | Reaches net t x}.Finite) :
    ∀ {x : Thread} {accepted : Bool} {f : Front}, Reaches net t x →
      {y | Reaches net t y ∧ ¬ f.Seen y}.ncard < fuel →
      Yields (fun _ => False) (close net fuel x accepted f) fun r => f.Extends net r.2 := by
  induction fuel with
  | zero => exact fun _ h => nomatch h
  | succ fuel ih =>
    intro x accepted f hx hfuel
    refine yields_close_succ hw (hx.placed hw ht) fun hseen y accepted f' hm hf' =>
      ih (hx.tail hm) ?_
    -- what comes next finds `x` among what was seen, so there is less left to see
    have := ncard_unseen_lt hfin (fun z hz => hf'.seen z (Front.seen_insert.2 hz)) hx hseen
    omega

theorem closes_of_actionsAdvance (hw : net.Wired) (ha : net.ActionsAdvance) :
    Closes net fun _ => False := by
  intro t ht accepted f
  obtain ⟨hfin, hlt⟩ := ncard_reaches_lt hw ha ht
  exact returns_close_of_unseen hw ht hfin .refl
    ((Set.ncard_le_ncard (fun x hx => hx.1) hfin).trans_lt hlt)

end ends

/--
A loaded lexer that has a mode cuts every text into tokens, of which the last is the end of input.
This is so if no action is met again without input, whether decisions are greedy or not, and however
rules call each other.
-/
theorem tokenize_returns {words : List Wire.Word} {options : LoadOptions}
    (hload : loadWords words options = .ok net) (hkind : net.kind = .lexer)
    (hmodes : 0 < net.modes.size) (hadvance : net.ActionsAdvance) (input : String) :
    ∃ tokens diagnostics, tokenize net input = .ok (tokens, diagnostics) ∧
      ∃ last ∈ tokens.getLast?, last.type = Symbol.eof := by
  have hw := (loadWords_wired hload).1
  obtain ⟨s, hs, -⟩ :=
    returns_iff_yields.2 (Scan.yields_run hw (closes_of_actionsAdvance hw hadvance) (s := {})
      (Modes.inRange_start hmodes) input.length_toList.le)
  refine ⟨s.finish, s.diagnostics, ?_, ?_⟩
  · have hnot : net.modes.isEmpty = false := by
      simpa [Array.isEmpty_iff_size_eq_zero] using hmodes.ne'
    rw [tokenize, if_neg (not_not.2 hkind), if_neg (by simp [hnot]), liftM_run_eq_ok.2 hs]
    rfl
  · exact ⟨_, List.getLast?_concat, rfl⟩

open Wire in
/-- The rule of a pair of brackets around any number of such pairs, which are skipped. -/
def nested : List Word :=
  lexerWords [[6, 0xFFFF], [2, 0], [7, 0], [1, 0], [11, 0], [1, 0], [1, 0], [1, 0]] [[1, 1]]
    [eps 0 1, eps 1 3, atom 3 4 91, eps 4 5, eps 4 6, callOf 5 1 4 0, atom 6 7 93,
      [7, 2, 6, 0, 0, 0]] [0, 4] [[6, 0, 0]]

theorem tokenize_returns_nested :
    loadWords nested { optimize := false } = .ok (loaded nested) ∧
    (loaded nested).kind = .lexer ∧ 0 < (loaded nested).modes.size ∧
    (loaded nested).ActionsAdvance ∧
    ∃ tokens diagnostics, tokenize (loaded nested) "[[]][" = .ok (tokens, diagnostics) ∧
      ∃ last ∈ tokens.getLast?, last.type = Symbol.eof := by
  have hload : loadWords nested { optimize := false } = .ok (loaded nested) :=
    loadWords_loaded (by decide +kernel)
  have hkind : (loaded nested).kind = .lexer := by decide +kernel
  have hmodes : 0 < (loaded nested).modes.size := by decide +kernel
  have hadvance : (loaded nested).ActionsAdvance := actionsAdvance_of_stops (by decide +kernel)
  exact ⟨hload, hkind, hmodes, hadvance, tokenize_returns hload hkind hmodes hadvance _⟩

section loops

/-- A search that always finds a new thread behind the first edge goes on and on, whatever its
bound. -/
theorem close_unfinished {chain : Nat → Thread} (hnew : ∀ i j, chain i = chain j → i = j)
    (hfirst : ∀ i, ∃ st e es ahead, net.states[(chain i).state]? = some st ∧ st.isRuleStop = false ∧
      st.followed = e :: es ∧ net.states[e.target]? = some ahead ∧
      (chain i).along ((chain i).passedNonGreedy || ahead.isNonGreedy) e = some (chain (i + 1))) :
    ∀ {i : Nat} {f : Front}, (∀ j, i ≤ j → ¬ f.Seen (chain j)) →
      close net fuel (chain i) false f = .error .unfinished := by
  induction fuel with
  | zero => exact fun _ => rfl
  | succ fuel ih =>
    intro i f hunseen
    obtain ⟨st, e, es, ahead, hst, hns, hfollowed, hahead, halong⟩ := hfirst i
    have hseen : ¬ f.seen.contains (chain i).stack.length (chain i) = true := hunseen i le_rfl
    -- the thread itself is seen now, and the ones after it are others
    have hnext {threads : List Thread} : close net fuel (chain (i + 1)) false
        { threads, seen := f.seen.insert (chain i).stack.length (chain i) } =
            .error .unfinished := by
      refine ih fun j hj hmem => ?_
      rcases Front.seen_insert.1 hmem with heq | hmem
      · have := hnew j i heq
        omega
      · exact hunseen j (by omega) hmem
    unfold close
    rw [if_neg hseen]
    refine bind_eq_error.2 (.inr ⟨st, state_eq_ok.2 hst, ?_⟩)
    rw [if_neg (by simp [hns]), hfollowed]
    refine bind_eq_error.2 (.inl (bind_eq_error.2 (.inr ⟨ahead, state_eq_ok.2 hahead, ?_⟩)))
    rw [halong]
    refine bind_eq_error.2 (.inl ?_)
    split <;> exact hnext

open Wire in
/-- The rule of a letter, in front of which an action comes back to itself. -/
def actionLoop : List Word :=
  lexerWords [[6, 0xFFFF], [2, 0], [7, 0], [11, 0], [1, 0]] [[1, 1]]
    [eps 0 1, eps 1 3, [3, 3, 6, 0, 0, 0], eps 3 4, atom 4 2 97] [0, 3] [[1, 0, 0]]

/-- The threads that the lexer of the letter begins with, each behind the one before. -/
def loopThread : Nat → Thread
  | 0 => { state := 1, alternative := 0 }
  | n + 1 => { state := 3, alternative := 0, commands := List.replicate n 0 }

theorem along_loopThread (i : Nat) :
    ∃ st e es ahead, (loaded actionLoop).states[(loopThread i).state]? = some st ∧
    st.isRuleStop = false ∧ st.followed = e :: es ∧
    (loaded actionLoop).states[e.target]? = some ahead ∧
    (loopThread i).along ((loopThread i).passedNonGreedy || ahead.isNonGreedy) e =
    some (loopThread (i + 1)) := by
  obtain ⟨s3, hs3, hns, hgreedy, hfollowed⟩ : ∃ st ∈ (loaded actionLoop).states[3]?,
      st.isRuleStop = false ∧ st.isNonGreedy = false ∧
      st.followed = [.action 3 0 (some 0) false, .plain 4] := by decide +kernel
  cases i with
  | zero =>
    obtain ⟨s1, hs1, hns1, hfollowed1⟩ : ∃ st ∈ (loaded actionLoop).states[1]?,
        st.isRuleStop = false ∧
        st.followed = [.plain 3] := by decide +kernel
    exact ⟨s1, _, _, s3, hs1, hns1, hfollowed1, hs3, by rw [hgreedy]; rfl⟩
  | succ n =>
    exact ⟨s3, _, _, s3, hs3, hns, hfollowed, hs3, by
      simp [loopThread, Thread.along, Edge.target, hgreedy, List.replicate_succ']⟩

/-- The lexer loads, and does not come to the end of any text with a character in it. -/
theorem tokenize_actionLoop : loadWords actionLoop { optimize := false } = .ok (loaded actionLoop) ∧
    ∀ input ≠ "", tokenize (loaded actionLoop) input = .error (.fault .unfinished) := by
  refine ⟨loadWords_loaded (by decide +kernel), fun input hinput => ?_⟩
  have hnew : ∀ i j, loopThread i = loopThread j → i = j := by
    rintro (_ | i) (_ | j) hij <;> simp_all [loopThread]
  have hmatch (text : List Char) : longestMatch (loaded actionLoop) 0 text =
      .error .unfinished := by
    obtain ⟨s0, hs0, hgreedy, hedges⟩ : ∃ st ∈ (loaded actionLoop).states[0]?,
        st.isNonGreedy = false ∧
        st.edges = [.plain 1] := by decide +kernel
    have hmode : (loaded actionLoop).modes[0]? = some 0 := by decide +kernel
    rw [longestMatch, bind_eq_error, start, bind_eq_error]
    refine .inl (.inr ⟨0, Fault.ofLookup_eq_ok.2 hmode, ?_⟩)
    rw [bind_eq_error]
    refine .inr ⟨s0, state_eq_ok.2 hs0, ?_⟩
    generalize closeBound (loaded actionLoop) = bound
    rw [hgreedy, hedges, List.zipIdx_cons, List.foldlM_cons, bind_eq_error]
    refine .inl (bind_eq_error.2 (.inl ?_))
    exact close_unfinished hnew along_loopThread (i := 0) fun j _ => Front.not_seen_empty _
  have hrun : Scan.run (loaded actionLoop) input.length {} input.toList = .error .unfinished := by
    obtain ⟨c, text, htext⟩ : ∃ c text, input.toList = c :: text :=
      List.exists_cons_of_ne_nil fun h => hinput (String.toList_eq_nil_iff.1 h)
    rw [← String.length_toList, htext, List.length_cons, Scan.run, bind_eq_error]
    exact .inl (hmatch _)
  have hkind : (loaded actionLoop).kind = .lexer := by decide +kernel
  have hmodes : (loaded actionLoop).modes.isEmpty = false := by decide +kernel
  rw [tokenize, if_neg (not_not.2 hkind), if_neg (by simp [hmodes]), hrun]
  rfl

end loops

end GrammarWalk.Tokenizer
