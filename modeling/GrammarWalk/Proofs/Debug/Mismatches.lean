import GrammarWalk.Proofs.Debug.Hidden
import GrammarWalk.Proofs.Load.Followed
import GrammarWalk.Proofs.Load.Settled
import GrammarWalk.Proofs.Parse.Accepts

/-! What the failures of a parse say is expected. A mismatch is recorded where one edge takes input
and the token ahead does not fit it, and the token is then not among those that are listed. -/

namespace GrammarWalk

open Network Choice

variable {net : Network} {w w' : Walker} {st : State} {e : Edge} {f : Failure} {s o : Nat}
  {expected : SymbolSet}

namespace Walker

theorem loud_of_visit (hst : w.net.states[w.state]? = some st)
    (h : w.visit = .ok (.error (.mismatch s o expected))) : ∃ e ∈ st.edges, e.isSilent = false := by
  obtain ⟨st', hst', hfails⟩ := visit_fails h
  obtain rfl := Option.some.inj (hst.symm.trans hst')
  cases hfails with
  | token he hloud => exact ⟨_, he, hloud⟩

theorem Move.failures (h : w.Move w') :
    w'.failures = w.failures ∨ ∃ st f, w.net.states[w.state]? = some st ∧
    st.isRuleStop = false ∧ w.visit = .ok (.error f) ∧ w'.failures = w.failures ++ [f] := by
  cases h with
  | visit _ _ hvisit => exact .inl (failures_visit hvisit)
  | fail hst hstop hvisit hfail => exact .inr ⟨_, _, hst, hstop, hvisit, failures_fail hfail⟩
  | leave _ _ _ hleave => exact .inl (failures_visitStop hleave)
  | finish _ _ _ hfinish => exact .inl (failures_finishRoot hfinish)

theorem Recalls.move {P : Nat → Prop} (hw : w.Recalls P) (hP : ∀ s, w.net.Invokes s → P s)
    (h : w.Move w') : w'.Recalls P := by
  cases h with
  | visit _ _ hvisit => exact hw.visit hP hvisit
  | fail _ _ _ hfail => exact hw.fail hfail
  | leave _ _ _ hleave => exact (hw.visitStop hleave).1
  | finish _ _ _ hfinish => exact hw.finishRoot hfinish

theorem Grounded.move (hw : w.Grounded) (h : w.Move w') : w'.Grounded :=
  grounded_iff.2 ((grounded_iff.1 hw).move (fun _ _ => trivial) h)

theorem move_of_proceed (h : w.proceed = .ok w') : w' = w ∨ w.finished = false ∧ w.Move w' := by
  unfold proceed at h
  split at h
  · exact .inl (pure_eq_ok.1 h).symm
  · rename_i hf
    simp only [bind_eq_ok, state_eq_ok] at h
    obtain ⟨st, hst, h⟩ := h
    split at h
    · rename_i hstop
      obtain ⟨root, hroot, h⟩ := bind_eq_ok.1 h
      cases root with
      | true => exact .inr ⟨by simpa using hf, .finish hst hstop hroot h⟩
      | false => exact .inr ⟨by simpa using hf, .leave hst hstop hroot h⟩
    · rename_i hstop
      obtain ⟨visited, hvisit, h⟩ := bind_eq_ok.1 h
      cases visited with
      | ok v =>
        exact .inr ⟨by simpa using hf, .visit hst (by simpa using hstop) (pure_eq_ok.1 h ▸ hvisit)⟩
      | error f => exact .inr ⟨by simpa using hf, .fail hst (by simpa using hstop) hvisit h⟩

theorem proceedFor_induction {P : Walker → Prop}
    (hmove : ∀ w w', P w → w.finished = false → w.Move w' → P w') {n : Nat} :
    ∀ {w w' : Walker}, P w → proceedFor n w = .ok w' → P w' := by
  induction n with
  | zero => exact fun hw h => pure_eq_ok.1 h ▸ hw
  | succ n ih =>
    intro w w' hw h
    obtain ⟨v, hv, hrest⟩ := bind_eq_ok.1 h
    obtain rfl | ⟨hf, hm⟩ := move_of_proceed hv
    · exact ih hw hrest
    · exact ih (hmove w v hw hf hm) hrest

/-- What a parse has at its start and what each move before its end keeps, the parse has after any
number of moves. -/
theorem parseFor_induction {P : Walker → Prop} {rule n : Nat} {l : List Token}
    (hbegin : ∀ w, ({ net, tokens := .ofList l } : Walker).enterRoot rule = .ok w → P w)
    (hmove : ∀ w w', P w → w.finished = false → w.Move w' → P w')
    (h : parseFor net rule n l = .ok w) : P w := by
  obtain ⟨w₀, hw₀, h⟩ := bind_eq_ok.1 h
  exact proceedFor_induction hmove (hbegin w₀ hw₀) h

theorem parseFor_keeps {P : Walker → Prop} {rule n : Nat} {l : List Token}
    (hbegin : ∀ w, ({ net, tokens := .ofList l } : Walker).enterRoot rule = .ok w → P w)
    (hmove : ∀ w w', P w → w.Move w' → P w') (h : parseFor net rule n l = .ok w) : P w :=
  parseFor_induction hbegin (fun w w' hw _ => hmove w w' hw) h

theorem recalls_start {P : Nat → Prop} {tokens : Tokens} : ({ net, tokens } : Walker).Recalls P :=
  ⟨Tree.holds_none, nofun, nofun⟩

theorem grounded_start {tokens : Tokens} : ({ net, tokens } : Walker).Grounded :=
  grounded_iff.2 recalls_start

end Walker

/-- A mismatch does not list the type of its own token. States of the invalid type with several
edges, which no check looks at, are left out. -/
def Failure.ListsOthers (net : Network) (tokens : Tokens) : Failure → Prop
  | .mismatch s o expected =>
    ∀ st, net.states[s]? = some st → (st.kind = .invalid → st.edges.length ≤ 1) →
      net.IsToken (tokens.get o).type → (tokens.get o).type ∉ expected
  | _ => True

/-- Edge `e`, the only one of state `s`, takes the symbols `found`: a look-ahead lists them, a parse
takes a token exactly if its type is one of them, and a choice goes on along the edge exactly with
them. -/
structure Network.Takes (net : Network) (s : Nat) (e : Edge) (found : SymbolSet) : Prop where
  ahead : net.nextSymbols s = .ok found
  parse : ∀ w : Walker, w.net = net → w.state = s → w.Grounded → net.IsToken w.tokens.ahead →
    ((∃ w', w.visit = .ok (.ok w')) ↔ w.tokens.ahead ∈ found)
  choice : ∀ (c : Setting) (t : Trail) (front : Front) (v : Int), c.net = net →
    (∀ q ∈ c.follow, q < net.states.size) → t.InRange c → t.state = s →
    (v ∈ found → ∃ front', close c (closeBound c) { t with state := e.target, only := none } front =
    .ok front' ∧ send c v front t = .ok front') ∧
    (v ∉ found → send c v front t = .ok front)

theorem Network.Lone.takes (h : net.Lone s st e) (hnet : net.InRange) (hf : net.FollowsLone) :
    ∃ found, net.Takes s e found := by
  obtain ⟨found, hahead, hiff⟩ := h.nextSymbols
  refine ⟨found, hahead, ?_, ?_⟩
  · rintro w rfl rfl hw hv
    rw [Walker.visit_iff_fits h hw, Edge.fits_eq_accepts hv, hiff]
  · rintro c t front v rfl hfollow ht rfl
    have hrange : c.InRange := ⟨hnet, hfollow⟩
    have honly : t.only = none ∨ t.only = some 0 := by
      cases hi : t.only with
      | none => exact .inl rfl
      | some i =>
        obtain ⟨st', hst', -, hlt⟩ := ht.only i hi
        obtain rfl := Option.some.inj (h.state.symm.trans hst')
        rw [h.edges] at hlt
        exact .inr (congrArg some (Nat.lt_one_iff.1 hlt))
    rw [hiff v, send_of_lone h (hf h.state h.edges h.loud) honly]
    constructor
    · intro hv
      have htarget := ((hnet.within h.state).edges e (by simp [h.edges])).1
      obtain ⟨front', hclose, -⟩ := returns_close hrange (ht.goto htarget) front
      exact ⟨front', hclose, (if_pos hv).trans hclose⟩
    · exact fun hv => if_neg hv

theorem Walker.listsOthers_of_visit (hc : w.net.Checked) (hu : w.net.Unmarked)
    (hst : w.net.states[w.state]? = some st) (hstop : st.isRuleStop = false)
    (h : w.visit = .ok (.error f)) : f.ListsOthers w.net w.tokens := by
  cases f with
  | mismatch s o expected =>
    intro st' hst' hfew hv
    obtain rfl : s = w.state := (failsHere_of_visit h).1
    obtain rfl := Option.some.inj (hst.symm.trans hst')
    obtain ⟨e, he, hloud⟩ := loud_of_visit hst h
    have hlone : w.net.Lone w.state st e :=
      ⟨hst, hstop, hc.edges_eq_of_loud hst hfew he hloud, hloud⟩
    obtain ⟨found, hahead, hiff⟩ := hlone.nextSymbols
    obtain ⟨hfits, follow, expected', hexpected, heq⟩ := failure_of_visit hlone h
    rw [expectedSymbols_eq hahead (hlone.not_ruleEnd hu hiff)] at hexpected
    obtain rfl := Except.ok.inj hexpected
    obtain ⟨-, rfl, rfl⟩ := Failure.mismatch.inj heq
    have hget : (w.tokens.get w.tokens.position).type = w.tokens.ahead := rfl
    rw [hget] at hv ⊢
    rw [hiff, ← Edge.fits_eq_accepts hv, hfits]
    exact Bool.false_ne_true
  | _ => trivial

/--
All tests of a symbol agree. An edge accepts what it lists as accepted. At a state with one edge
that takes input, unless a rule ends there, the look-ahead, a parse and the trails of a choice
agree, and trails and parses are always as is asked for there. So no mismatch of a parse lists the
type of its own token.
-/
theorem loadWords_tests_agree {words : List Wire.Word} {options : LoadOptions}
    (hverify : options.verify = true) (hload : loadWords words options = .ok net) :
    (∀ (e : Edge) (v lo hi : Int),
      e.accepts v lo hi = true ↔ ∃ symbols, e.accepted? lo hi = some symbols ∧ v ∈ symbols) ∧
    (∀ s st e, net.Lone s st e → ∃ found, net.Takes s e found) ∧
    (∀ (c : Setting) (decision : Nat) (st : State) (read : List Int) (trails : List Trail),
    c.net = net →
      (∀ q ∈ c.follow, q < net.states.size) → net.states[decision]? = some st →
      st.isRuleStop = false →
      Symbol.eof ∉ read → trailsAfter c decision read = .ok trails → ∀ t ∈ trails, t.InRange c) ∧
    ∀ rule n l w, Walker.parseFor net rule n l = .ok w →
      w.net = net ∧ w.Grounded ∧ ∀ f ∈ w.failures, f.ListsOthers net w.tokens := by
  have hrange := loadWords_inRange hload
  refine ⟨fun _ _ _ _ => Edge.accepts_iff,
    fun s st e h => h.takes hrange (loadWords_followed hload).2.1, ?_, ?_⟩
  · rintro c decision st read trails rfl hfollow hst hstop hread htrails t ht
    exact ((left_trailsAfter ⟨hrange, hfollow⟩ hst hstop hread htrails).1.waiting t ht).1
  · intro rule n l w h
    refine Walker.parseFor_keeps (P := fun w => w.net = net ∧ w.Grounded ∧ ∀ f ∈ w.failures,
      f.ListsOthers net w.tokens)
      (fun w₀ hw₀ => ?_) (fun w w' hw hm => ?_) h
    · refine ⟨(Walker.continues_enterRoot hw₀).net, Walker.grounded_start.enterRoot hw₀, ?_⟩
      rw [Walker.failures_enterRoot hw₀]
      exact nofun
    · obtain ⟨rfl, hg, hfs⟩ := hw
      obtain ⟨hnet, hget⟩ := hm.same
      refine ⟨hnet, hg.move hm, fun f hf => ?_⟩
      have hsame : f.ListsOthers w.net w'.tokens ↔ f.ListsOthers w.net w.tokens := by
        cases f <;> simp only [Failure.ListsOthers, hget]
      rw [hsame]
      obtain heq | ⟨st, f', hst, hstop, hvisit, heq⟩ := hm.failures
      · exact hfs f (heq ▸ hf)
      · rw [heq, List.mem_append, List.mem_singleton] at hf
        obtain hf | rfl := hf
        · exact hfs f hf
        · exact Walker.listsOthers_of_visit (loadWords_checked hverify hload)
            (loadWords_unmarked hload) hst hstop hvisit

namespace Wire

/-- One rule, which matches the symbol 1; its stop has an edge with the symbol too. -/
def pastStop : List Word :=
  parserWords [[2, 0], [7, 0], [1, 0], [1, 0]] [0] [eps 0 2, atom 2 3 1, eps 3 1, atom 1 3 1] []

/-- One rule, with two edges that take input at a state of the invalid type. -/
def loose : List Word :=
  parserWords [[2, 0], [7, 0], [0], [1, 0]] [0] [eps 0 2, atom 2 3 1, atom 2 3 2, eps 3 1] []

end Wire

open Wire

theorem loadWords_tests_agree_pastStop :
    loadWords pastStop { optimize := false } = .ok (loaded pastStop) ∧
    (∃ found, (loaded pastStop).Takes 2 (.atom 3 1) found) ∧
    ∃ w, Walker.parseFor (loaded pastStop) 0 2 [tokenOf 2] = .ok w ∧
    w.failures = [.mismatch 2 0 (.singleton 1)] ∧
      ∀ f ∈ w.failures, f.ListsOthers (loaded pastStop) w.tokens := by
  have hload : loadWords pastStop { optimize := false } = .ok (loaded pastStop) :=
    loadWords_loaded (by decide +kernel)
  obtain ⟨-, hlone, -, hruns⟩ := loadWords_tests_agree rfl hload
  obtain ⟨st, hst, hstop, hedges⟩ : ∃ st ∈ (loaded pastStop).states[2]?, st.isRuleStop = false ∧
      st.edges = [.atom 3 1] := by
    decide +kernel
  obtain ⟨w, hw, hfailures⟩ := ok_of_any (x := Walker.parseFor (loaded pastStop) 0 2 [tokenOf 2])
    (p := fun w => w.failures = [.mismatch 2 0 (.singleton 1)]) (by decide +kernel)
  exact ⟨hload, hlone 2 st _ ⟨hst, hstop, hedges, rfl⟩, w, hw, of_decide_eq_true hfailures,
    (hruns 0 2 _ w hw).2.2⟩

/-- At the stop of a rule a parse takes the symbol of an edge that no look-ahead lists; and at a
state of the invalid type a choice takes the first edge, so that the failure lists the type of its
own token. -/
theorem tests_disagree :
    (loadWords pastStop { optimize := false } = .ok (loaded pastStop) ∧
      (∃ st ∈ (loaded pastStop).states[1]?, st.edges = [.atom 3 1]) ∧
      ∃ w, Walker.parseFor (loaded pastStop) 0 3 [tokenOf 1, tokenOf 1] = .ok w ∧ w.state = 1 ∧
        (loaded pastStop).IsToken w.tokens.ahead ∧ (∃ w', w.visit = .ok (.ok w')) ∧
        ∃ found, (loaded pastStop).nextSymbols 1 = .ok found ∧ w.tokens.ahead ∉ found) ∧
    (loadWords loose { optimize := false } = .ok (loaded loose) ∧
      ∃ w, Walker.parseFor (loaded loose) 0 2 [tokenOf 2] = .ok w ∧ ∃ s o expected,
        w.failures = [.mismatch s o expected] ∧ (loaded loose).IsToken (w.tokens.get o).type ∧
        (w.tokens.get o).type ∈ expected) := by
  refine ⟨⟨loadWords_loaded (by decide +kernel), by decide +kernel, ?_⟩,
    loadWords_loaded (by decide +kernel), ?_⟩
  · obtain ⟨w, hw, hstands⟩ :=
      ok_of_any (x := Walker.parseFor (loaded pastStop) 0 3 [tokenOf 1, tokenOf 1])
      (p := fun w => decide (w.state = 1 ∧ w.tokens.ahead = 1 ∧
        w.visit.toOption.any (·.toOption.isSome) = true))
      (by decide +kernel)
    obtain ⟨hstate, hahead, hvisit⟩ := of_decide_eq_true hstands
    obtain ⟨v, hv, htook⟩ := ok_of_any hvisit
    obtain ⟨found, hfound, hnot⟩ :=
      ok_of_any (x := (loaded pastStop).nextSymbols 1) (p := fun found => (1 : Int) ∉ found)
      (by decide +kernel)
    refine ⟨w, hw, hstate, ?_, ?_, found, hfound, hahead ▸ of_decide_eq_true hnot⟩
    · rw [hahead]
      decide +kernel
    cases v with
    | ok w' => exact ⟨w', hv⟩
    | error f => cases htook
  · obtain ⟨w, hw, hfailed⟩ := ok_of_any (x := Walker.parseFor (loaded loose) 0 2 [tokenOf 2])
      (p := fun w => decide (w.failures = [.mismatch 2 0 (.ofSpan 1 2)] ∧ (loaded loose).IsToken
        (w.tokens.get 0).type ∧ (w.tokens.get 0).type ∈ SymbolSet.ofSpan 1 2)) (by decide +kernel)
    obtain ⟨hfailures, htoken, hmem⟩ := of_decide_eq_true hfailed
    exact ⟨w, hw, 2, 0, _, hfailures, htoken, hmem⟩

end GrammarWalk
