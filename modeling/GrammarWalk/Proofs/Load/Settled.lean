import GrammarWalk.Proofs.Load.Choice

/-! Where a choice settles, nothing that may come can tell the alternatives apart that are left.
That is so as soon as a token is read; before that, trails look the same that can take different
edges of the decision itself. -/

namespace GrammarWalk

open Network Relation Choice

namespace Choice

variable {s : Setting} {st : State} {symbol : Int} {symbols read : List Int}
  {trails next : List Trail} {decision a b : Nat}

/-- The alternatives of a decision with a path over some symbols and the end of input after them. -/
def accepting (s : Setting) (decision : Nat) (st : State) (symbols : List Int) : Set Nat :=
  {a | ∃ i < st.edges.length, a = i + 1 ∧ Viable s symbols (origin s decision i)}

/-- The trails that are left when some symbols are read. -/
def trailsAfter (s : Setting) (decision : Nat) (symbols : List Int) : Except Fault (List Trail) :=
  do
  symbols.foldlM (step s) (← start s decision)

theorem trailsAfter_nil : trailsAfter s decision [] = start s decision := bind_pure _

theorem trailsAfter_concat (h : trailsAfter s decision read = .ok trails) :
    trailsAfter s decision (read ++ [symbol]) = step s trails symbol := by
  obtain ⟨trails₀, hstart, hread⟩ := bind_eq_ok.1 h
  rw [trailsAfter, hstart]
  show (read ++ [symbol]).foldlM (step s) trails₀ = _
  rw [List.foldlM_append, hread]
  show step s trails symbol >>= pure = _
  exact bind_pure _

theorem trailsAfter_concat_eq_ok (h : trailsAfter s decision (read ++ [symbol]) = .ok next) :
    ∃ trails, trailsAfter s decision read = .ok trails ∧ step s trails symbol = .ok next := by
  obtain ⟨trails₀, hstart, hread⟩ := bind_eq_ok.1 h
  rw [List.foldlM_append, bind_eq_ok] at hread
  obtain ⟨trails, htrails, hnext⟩ := hread
  exact ⟨trails, bind_eq_ok.2 ⟨trails₀, hstart, htrails⟩,
    (bind_pure (step s trails symbol)).symm.trans hnext⟩

/-- The trails that are left can take what their alternatives can take behind the symbols read. -/
structure Left (s : Setting) (decision : Nat) (st : State) (read : List Int) (trails : List Trail) :
    Prop where
  waiting : Waiting s trails
  takes : ∀ symbols, fitting s symbols trails = accepting s decision st (read ++ symbols)

theorem left_trailsAfter (h : s.InRange) (hst : s.net.states[decision]? = some st)
    (hns : st.isRuleStop = false) (hread : Symbol.eof ∉ read)
    (htrails : trailsAfter s decision read = .ok trails) :
    Left s decision st read trails ∧ (read ≠ [] → ∀ t ∈ trails, t.only = none) := by
  induction read using List.reverseRecOn generalizing trails with
  | nil =>
    have hstart := (returns_start h hst hns).of_eq_ok (trailsAfter_nil ▸ htrails)
    exact ⟨⟨waiting_start h hst hns hstart, fun symbols => fitting_start hstart⟩,
      fun hne => absurd rfl hne⟩
  | append_singleton read symbol ih =>
    obtain ⟨hread, hsymbol⟩ := not_or.1 (mt List.mem_append.2 hread)
    have hsymbol : symbol ≠ Symbol.eof := fun heq => hsymbol (List.mem_singleton.2 heq.symm)
    obtain ⟨trails', htrails', hstep⟩ := trailsAfter_concat_eq_ok htrails
    obtain ⟨hleft, -⟩ := ih hread htrails'
    have hnext := (returns_step symbol h hleft.waiting).of_eq_ok hstep
    have hrun (symbols : List Int) := running_of_step symbols h hleft.waiting hsymbol hnext
    refine ⟨⟨(hrun []).1.waiting, fun symbols => ?_⟩, fun _ => (hrun []).1.only⟩
    rw [← (hrun symbols).2, hleft.takes, List.append_assoc]
    rfl

/-- Trails that have settled past the decision are of alternatives that take the same symbols. -/
theorem Left.accepting_iff (h : Left s decision st read trails)
    (honly : ∀ t ∈ trails, t.only = none) (hset : settled? trails = some a)
    (hb : b ∈ alternatives trails) (symbols : List Int) :
    b ∈ accepting s decision st (read ++ symbols) ↔
      a ∈ accepting s decision st (read ++ symbols) := by
  obtain ⟨⟨ha, -⟩, hsame⟩ := settled?_eq_some hset
  have himp {b c : Nat} (hc : c ∈ alternatives trails) (hb : b ∈ fitting s symbols trails) :
      c ∈ fitting s symbols trails := by
    obtain ⟨t, ht, -, hfits⟩ := hb
    obtain ⟨u, hu, huc, hout⟩ := hsame t ht c hc
    exact ⟨u, hu, huc, hfits.of_outlook (honly t ht) (honly u hu) hout⟩
  rw [← h.takes]
  exact ⟨himp ha, himp hb⟩

theorem Left.accepting_eq (h : Left s decision st read trails) (hrange : s.InRange)
    (hnext : step s trails Symbol.eof = .ok next) :
    accepting s decision st read = alternatives next := by
  rw [← fitting_nil ((returns_step _ hrange h.waiting).of_eq_ok hnext), h.takes, List.append_nil]

/-- The answer comes from trails that settle on it behind some of the tokens ahead, or at the end of
input. -/
def Answered (s : Setting) (decision a : Nat) : Prop :=
  ∃ read rest trails, s.tokens.typesFrom s.tokens.position = read ++ rest ∧
    trailsAfter s decision read = .ok trails ∧ (settled? trails = some a ∨ rest = [] ∧
      ∃ next, step s trails Symbol.eof = .ok next ∧ next ≠ [] ∧ a = least next)

/-- So does an answer that is found from the trails on that are left behind some tokens. -/
theorem answered_of_chooseFrom (hready : s.tokens.Ready) {fuel i : Nat}
    (hread : s.tokens.typesFrom s.tokens.position = read ++ s.tokens.typesFrom i)
    (hi : s.tokens.IsRead i) (htrails : trailsAfter s decision read = .ok trails)
    (h : chooseFrom s decision fuel trails i = .ok (.ok a)) : Answered s decision a := by
  induction fuel generalizing read trails i with
  | zero => cases h
  | succ fuel ih =>
    rw [chooseFrom] at h
    split at h
    · rename_i b hset
      obtain rfl := Except.ok.inj (pure_eq_ok.1 h)
      exact ⟨read, _, trails, hread, htrails, .inl hset⟩
    · rw [bind_eq_ok] at h
      obtain ⟨next, hnext, h⟩ := h
      have htypes := Tokens.typesFrom_eq hready.last hi
      split at h
      · cases pure_eq_ok.1 h
      rename_i hne
      split at h
      · rename_i heof
        rw [if_pos heof] at htypes
        obtain rfl := Except.ok.inj (pure_eq_ok.1 h)
        exact ⟨read, _, trails, hread, htrails,
          .inr ⟨htypes, next, heof ▸ hnext, by simpa using hne, rfl⟩⟩
      · rename_i heof
        rw [if_neg heof] at htypes
        obtain ⟨hreads, hsame⟩ := s.tokens.nextRead_spec (i + 1)
        refine ih ?_ hreads ((trailsAfter_concat htrails).trans hnext) h
        rw [hread, htypes, hsame, List.append_assoc]
        rfl

theorem answered_of_choose (hready : s.tokens.Ready) (h : choose s decision = .ok (.ok a)) :
    Answered s decision a := by
  rw [choose, bind_eq_ok] at h
  obtain ⟨trails, hstart, h⟩ := h
  refine answered_of_chooseFrom hready ?_ hready.position (trailsAfter_nil.trans hstart) h
  rfl

end Choice

/--
An answer at a decision of a loaded network, checked or not. Either the trails settle on it behind
some of the tokens ahead, and then every alternative that is left takes the same symbols from there
as the answer; or all tokens are read, and it is the least alternative that takes them. What settles
before the first token is only said of checked networks, and of decisions whose edges take no input.
-/
theorem choose_among_alike {words : List Wire.Word} {options : LoadOptions} {net : Network}
    {decision : Nat} {st : State}
    (hload : loadWords words options = .ok net) (hst : net.states[decision]? = some st)
    (hdecision : st.kind.decision?.isSome = true) (tokens : List Token) (consumed : Nat)
    {follow : Array Nat}
    (hfollow : ∀ q ∈ follow, q < net.states.size) (precedence : Int) {a : Nat}
    (hchoose : choose (.mk net (Tokens.advance^[consumed] (.ofList tokens)) follow precedence)
      decision = .ok (.ok a)) :
    let s := Setting.mk net (Tokens.advance^[consumed] (.ofList tokens)) follow precedence
    ∃ read rest trails, s.tokens.typesFrom s.tokens.position = read ++ rest ∧
      trailsAfter s decision read = .ok trails ∧
      (settled? trails = some a ∧ (read ≠ [] ∨ options.verify = true ∨
      (∀ e ∈ st.edges, e.isSilent = true) → ∀ b ∈ alternatives trails, ∀ symbols, b ∈
      accepting s decision st (read ++ symbols) ↔ a ∈ accepting s decision st (read ++ symbols)) ∨
      rest = [] ∧ IsLeast (accepting s decision st read) a) := by
  intro s
  have hrange : s.InRange := ⟨loadWords_inRange hload, hfollow⟩
  have hready : s.tokens.Ready := Tokens.ready_advance tokens consumed
  have hns := isRuleStop_of_decision hdecision
  obtain ⟨read, rest, trails, hread, htrails, hanswer⟩ := answered_of_choose hready hchoose
  have heof : Symbol.eof ∉ read := fun hmem =>
    Tokens.eof_notMem_typesFrom _ _ (hread ▸ List.mem_append_left rest hmem)
  obtain ⟨hleft, hpast⟩ := left_trailsAfter hrange hst hns heof htrails
  refine ⟨read, rest, trails, hread, htrails,
    hanswer.imp (fun hset => ⟨hset, fun hcond b hb symbols => ?_⟩) ?_⟩
  · by_cases hnil : read = []
    · subst hnil
      have hsilent : b ≠ a → ∀ e ∈ st.edges, e.isSilent = true := by
        intro hne
        refine (hcond.resolve_left (not_not.2 rfl)).elim (fun hverify => ?_) id
        -- two alternatives are two edges, which a checked decision has only if none takes input
        have hin := alternatives_of_start (trailsAfter_nil ▸ htrails) hst
        have hseveral : 1 < st.edges.length := by
          have := hin hb
          have := hin (settled?_eq_some hset).1.1
          simp only [Set.mem_Icc] at *
          omega
        exact fun e => (loadWords_checked hverify hload).isSilent_of_mem hst
          (kind_ne_invalid_of_decision hdecision)
          hseveral
      by_cases hne : b = a
      · exact hne ▸ Iff.rfl
      have hstart := (returns_start hrange hst hns).of_eq_ok (trailsAfter_nil ▸ htrails)
      refine hleft.accepting_iff (fun t ht => ?_) hset hb symbols
      obtain ⟨i, -, hit, hw⟩ := (hstart t).1 ht
      exact only_of_reaches_origin hst hns (hsilent hne) hit hw
    · exact hleft.accepting_iff (hpast hnil) hset hb symbols
  · rintro ⟨rfl, next, hnext, hne, rfl⟩
    exact ⟨rfl, hleft.accepting_eq hrange hnext ▸ least_isLeast hne⟩

open Wire in
/-- One rule with a decision whose own edges take the symbols 1 and 2. -/
def fork : List Word :=
  parserWords [[2, 0], [7, 0], [3, 0, 5], [1, 0], [1, 0], [8, 0]] [0]
    [eps 0 2, atom 2 3 1, atom 2 4 2, eps 3 5, eps 4 5, eps 5 1] [2]

def uncheckedFork : Network :=
  (loadWords fork { verify := false, optimize := false }).toOption.getD default

/-- Before the first token the two edges look the same: the choice settles on the first, and only
the second fits. -/
theorem choose_fork : loadWords fork { verify := false, optimize := false } = .ok uncheckedFork ∧
    ∃ st, uncheckedFork.states[2]? = some st ∧ st.kind.decision?.isSome = true ∧
      let s := Setting.mk uncheckedFork (.ofList [tokenOf 2]) #[] 0
      choose s 2 = .ok (.ok 1) ∧ accepting s 2 st [2] = {2} := by
  have hload : loadWords fork { verify := false, optimize := false } = .ok uncheckedFork := by
    decide +kernel
  obtain ⟨st, hst, hdecision⟩ : ∃ st ∈ uncheckedFork.states[2]?, st.kind.decision?.isSome =
    true := by decide +kernel
  refine ⟨hload, st, hst, hdecision, by decide +kernel, ?_⟩
  have hrange : (Setting.mk uncheckedFork (.ofList [tokenOf 2]) #[] 0).InRange :=
    ⟨loadWords_inRange hload, by simp⟩
  obtain ⟨trails, next, htrails, hnext, hleft⟩ : ∃ trails next,
      trailsAfter (.mk uncheckedFork (.ofList [tokenOf 2]) #[] 0) 2 [2] = .ok trails ∧
      step (.mk uncheckedFork (.ofList [tokenOf 2]) #[] 0) trails Symbol.eof = .ok next ∧
      next.map (·.alternative) = [2] := by
    refine ⟨[{ state := 1, alternative := 2, outer := 0 }],
      [{ state := 1, alternative := 2, outer := 0 }], ?_⟩
    decide +kernel
  have hread :=
    (left_trailsAfter hrange hst (isRuleStop_of_decision hdecision) (by decide) htrails).1
  rw [hread.accepting_eq hrange hnext]
  ext a
  rw [Set.mem_singleton_iff, ← List.mem_singleton, ← hleft, List.mem_map]
  rfl

end GrammarWalk
