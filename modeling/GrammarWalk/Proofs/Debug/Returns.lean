import GrammarWalk.Proofs.Debug.Parses
import GrammarWalk.Proofs.Load.Marks
import GrammarWalk.Proofs.Parse.Contexts

/-! Where a parse goes on when a rule is done. The tree keeps the state that each open rule was
called from but not the call itself, so a return goes on behind the first call of that state. This
is the call that was taken as long as all calls out of one state go on in the same state. -/

namespace GrammarWalk

/-- Where a return to state `s` goes on. -/
def Network.goesOn? (net : Network) (s : Nat) : Option Nat := net.states[s]?.bind State.goesOn?

/-- A call that a parse has taken, and the state it has taken it in. -/
structure Taken where
  state : Nat
  call : Call
deriving DecidableEq, Repr

/-- The open nodes but the root were entered by the calls. -/
inductive Called (net : Network) : List Taken → List Context → Prop
  | root {c : Context} : c.invoking = none → Called net [] [c]
  | call {t : Taken} {st : State} {c : Context} {calls : List Taken} {l : List Context} :
      c.invoking = some t.state → c.rule = t.call.rule → net.states[t.state]? = some st →
        .call t.call ∈ st.edges →
      Called net calls l → Called net (t :: calls) (c :: l)

namespace Called

variable {net : Network} {calls : List Taken} {c c' : Context} {l l' : List Context}

theorem step {s : Nat} {st : State} {taken : Option Call} (h : Called net calls (c :: l))
    (hst : net.states[s]? = some st) (hmem : ∀ k, taken = some k → .call k ∈ st.edges)
    (hstep : Context.Step s c l taken c' l') :
    Called net ((taken.map (Taken.mk s)).toList ++ calls) (c' :: l') := by
  cases hstep with
  | within hrule hinvoking =>
    cases h with
    | root hroot => exact .root (hinvoking.trans hroot)
    | call hcalled hof hs hk hrest =>
      exact .call (hinvoking.trans hcalled) (hrule.trans hof) hs hk hrest
  | called hrule hinvoking => exact .call hinvoking hrule hst (hmem _ rfl) h

theorem tail {d : Context} (h : Called net calls (c :: d :: l)) :
    ∃ t rest, calls = t :: rest ∧ c.invoking = some t.state ∧ Called net rest (d :: l) := by
  cases h with
  | call hinvoking _ _ _ hrest => exact ⟨_, _, rfl, hinvoking, hrest⟩

theorem eq_nil (h : Called net calls [c]) : calls = [] := by
  cases h with
  | root => rfl
  | call _ _ _ _ hrest => cases hrest

theorem edge (h : Called net calls l) :
    ∀ t ∈ calls, ∃ st, net.states[t.state]? = some st ∧ .call t.call ∈ st.edges := by
  induction h with
  | root => exact fun _ ht => nomatch ht
  | call _ _ hs hk _ ih => exact List.forall_mem_cons.2 ⟨⟨_, hs, hk⟩, ih⟩

theorem goesOn?_eq (h : Called net calls l) (hagree : net.CallsAgree) :
    ∀ t ∈ calls, net.goesOn? t.state = some t.call.follow := by
  induction h with
  | root => exact fun _ ht => nomatch ht
  | @call t st c calls l _ _ hs hk _ ih =>
    refine List.forall_mem_cons.2 ⟨?_, ih⟩
    obtain ⟨first, hfirst, hgoes⟩ := State.goesOn?_of_mem hk
    rw [Network.goesOn?, hs, Option.bind_some, hgoes, hagree _ _ _ _ hs hfirst hk]

end Called

namespace Walker

variable {net : Network} {w w' : Walker} {calls : List Taken} {c : Context}
  {cs l : List Context} {st : State}

/-- A parse of the network has come to `w`, and it is inside of the calls, innermost first. -/
inductive Inside (net : Network) : Walker → List Taken → Prop
  | enter {tokens : List Token} {rule : Nat} {w : Walker} :
      ({ net, tokens := .ofList tokens } : Walker).enterRoot rule = .ok w → Inside net w []
  | visit {w w' : Walker} {calls : List Taken} {st : State} : Inside net w calls →
      w.finished = false →
      w.net.states[w.state]? = some st → st.isRuleStop = false → w.visit = .ok (.ok w') →
      Inside net w' ((w.callTaken?.map (Taken.mk w.state)).toList ++ calls)
  | fail {w w' : Walker} {calls : List Taken} {f : Failure} : Inside net w calls →
      w.finished = false →
      w.visit = .ok (.error f) → w.fail f = .ok w' → Inside net w' calls
  | leave {w w' : Walker} {calls : List Taken} {st : State} : Inside net w calls →
      w.finished = false →
      w.net.states[w.state]? = some st → st.isRuleStop = true → w.atRoot = .ok false →
      w.visitStop = .ok w' →
      Inside net w' calls.tail
  | finish {w w' : Walker} {calls : List Taken} : Inside net w calls → w.finished = false →
      w.atRoot = .ok true → w.finishRoot = .ok w' → Inside net w' calls

theorem Inside.move (h : Inside net w calls) (hf : w.finished = false) (hmove : w.Move w') :
    ∃ calls', Inside net w' calls' := by
  cases hmove with
  | visit hst hns hvisit => exact ⟨_, h.visit hf hst hns hvisit⟩
  | fail _ _ hvisit hfail => exact ⟨_, h.fail hf hvisit hfail⟩
  | leave hst hstop hroot hleave => exact ⟨_, h.leave hf hst hstop hroot hleave⟩
  | finish _ _ hroot hfinish => exact ⟨_, h.finish hf hroot hfinish⟩

theorem mem_of_callTaken? {k : Call} (hst : w.net.states[w.state]? = some st)
    (hk : w.callTaken? = some k) : .call k ∈ st.edges := by
  rw [callTaken?, hst] at hk
  dsimp only at hk
  split at hk
  · obtain ⟨e, he, hcall⟩ := Option.bind_eq_some_iff.1 hk
    obtain rfl := Edge.call?_eq_some.1 hcall
    exact List.mem_of_getElem? he
  · cases hk

/-- The open nodes of the parse were entered by the calls. At its end none is open. -/
structure Tracks (w : Walker) (calls : List Taken) : Prop where
  running : w.finished = false → ∃ c l, w.Aligned c l ∧ Called w.net calls (c :: l)
  done : w.finished = true → w.context = none ∧ calls = []

theorem Inside.tracks (hw : net.Wired) (henc : net.Enclosed) (hmarks : net.MarksPrecedence)
    (h : Inside net w calls) : w.net = net ∧ w.Tracks calls := by
  induction h with
  | enter hroot =>
    have hcont := continues_enterRoot hroot
    obtain ⟨ha, -⟩ := aligned_enterRoot hw henc hroot
    exact ⟨hcont.net, fun _ => ⟨_, _, ha, .root rfl⟩,
      fun hf => absurd (hf.symm.trans hcont.finished) Bool.noConfusion⟩
  | visit _ hf hst hns hvisit ih =>
    obtain ⟨rfl, ht⟩ := ih
    have hcont := continues_visit hvisit
    obtain ⟨c, l, ha, hcalled⟩ := ht.running hf
    obtain ⟨c', l', ha', -, hstep⟩ := ha.visit hw henc hmarks hst hns hvisit
    refine ⟨hcont.net, fun _ => ⟨c', l', ha', ?_⟩, fun hf' => ?_⟩
    · rw [hcont.net]
      exact hcalled.step hst (fun k => mem_of_callTaken? hst) hstep
    · exact absurd (hf'.symm.trans (hcont.finished.trans hf)) Bool.noConfusion
  | fail _ hf hvisit hfail ih =>
    obtain ⟨rfl, ht⟩ := ih
    have hcont := continues_fail hfail
    obtain ⟨c, l, ha, hcalled⟩ := ht.running hf
    refine ⟨hcont.net, fun _ => ⟨c, l, (ha.fail hw hvisit hfail).1, hcont.net ▸ hcalled⟩,
      fun hf' => ?_⟩
    exact absurd (hf'.symm.trans (hcont.finished.trans hf)) Bool.noConfusion
  | leave _ hf hst _ hroot hleave ih =>
    obtain ⟨rfl, ht⟩ := ih
    have hcont := continues_visitStop hleave
    obtain ⟨c, l, ha, hcalled⟩ := ht.running hf
    obtain ⟨d, l', rfl, ha', -⟩ := ha.visitStop henc hst hroot hleave
    obtain ⟨t, rest, rfl, -, hrest⟩ := hcalled.tail
    refine ⟨hcont.net, fun _ => ⟨d, l', ha', hcont.net ▸ hrest⟩, fun hf' => ?_⟩
    exact absurd (hf'.symm.trans (hcont.finished.trans hf)) Bool.noConfusion
  | finish _ hf hroot hfinish ih =>
    obtain ⟨rfl, ht⟩ := ih
    obtain ⟨c, l, ha, hcalled⟩ := ht.running hf
    obtain ⟨rfl, hctx, hnet⟩ := ha.finishRoot hroot hfinish
    have hdone := finished_finishRoot hfinish
    exact ⟨hnet, fun hf' => absurd (hdone.symm.trans hf') Bool.noConfusion,
      fun _ => ⟨hctx, hcalled.eq_nil⟩⟩

theorem followFrom_root {id depth : Nat} {r : RuleNode} {rest : List Nat}
    (hr : w.tree.nodes[id]? = some (.rule r)) (hinvoking : r.invoking = none)
    (hrest : w.followFrom depth r.parent = .ok rest) :
    w.followFrom (depth + 1) (some id) = .ok rest := by
  refine bind_eq_ok.2 ⟨_, Tree.ruleNode?_of_getElem? hr, ?_⟩
  dsimp only
  rw [hinvoking]
  exact bind_eq_ok.2 ⟨_, rfl, bind_eq_ok.2 ⟨_, hrest, rfl⟩⟩

theorem followFrom_called {id depth s : Nat} {r : RuleNode} {rest : List Nat}
    (hr : w.tree.nodes[id]? = some (.rule r)) (hinvoking : r.invoking = some s)
    (hst : w.net.states[s]? = some st) (hrest : w.followFrom depth r.parent = .ok rest) :
    w.followFrom (depth + 1) (some id) = .ok (st.goesOn?.toList ++ rest) := by
  refine bind_eq_ok.2 ⟨_, Tree.ruleNode?_of_getElem? hr, ?_⟩
  dsimp only
  rw [hinvoking]
  exact bind_eq_ok.2 ⟨_, bind_eq_ok.2 ⟨_, Network.state_eq_ok.2 hst, rfl⟩,
    bind_eq_ok.2 ⟨_, hrest, rfl⟩⟩

theorem followFrom_eq (hcalled : Called w.net calls cs) {ctx : Option Nat} {depth : Nat}
    (hopen : w.tree.Open ctx cs) (hdepth : cs.length ≤ depth) :
    w.followFrom depth ctx = .ok (calls.filterMap fun t => w.net.goesOn? t.state) := by
  induction hcalled generalizing ctx depth with
  | root hroot =>
    cases hopen with
    | cons hr hrest =>
      obtain ⟨depth, rfl⟩ := Nat.exists_eq_succ_of_ne_zero (Nat.ne_zero_of_lt hdepth)
      refine followFrom_root hr hroot ?_
      rw [hrest.context_eq]
      cases depth <;> rfl
  | call hinvoking _ hst hk _ ih =>
    cases hopen with
    | cons hr hrest =>
      obtain ⟨depth, rfl⟩ := Nat.exists_eq_succ_of_ne_zero (Nat.ne_zero_of_lt hdepth)
      rw [followFrom_called hr hinvoking hst (ih hrest (Nat.le_of_succ_le_succ hdepth))]
      obtain ⟨first, -, hgoes⟩ := State.goesOn?_of_mem hk
      rw [List.filterMap_cons, Network.goesOn?, hst, Option.bind_some, hgoes]
      rfl

theorem Aligned.length_le (h : w.Aligned c l) : (c :: l).length ≤ w.tree.size := by
  have hnodup : ((c :: l).map (·.node)).Nodup := h.order.imp fun hgt => Nat.ne_of_gt hgt
  have hsub : (c :: l).map (·.node) ⊆ List.range w.tree.size := fun x hx => by
    obtain ⟨d, hd, rfl⟩ := List.mem_map.1 hx
    obtain ⟨r, hr⟩ := h.tree.of_mem hd
    exact List.mem_range.2 (Tree.lt_size hr)
  simpa using (hnodup.subperm hsub).length_le

/-- What the parse lists as its follow states is where the calls that it is inside of go on,
outermost first. -/
theorem Tracks.followStates_eq (h : w.Tracks calls) :
    w.followStates = .ok (calls.filterMap fun t => w.net.goesOn? t.state).reverse := by
  refine bind_eq_ok.2 ⟨_, ?_, rfl⟩
  cases hf : w.finished with
  | true =>
    obtain ⟨hctx, rfl⟩ := h.done hf
    rw [hctx]
    rfl
  | false =>
    obtain ⟨c, l, ha, hcalled⟩ := h.running hf
    exact followFrom_eq hcalled ha.tree (Nat.le_succ_of_le ha.length_le)

theorem Tracks.visitStop (h : w.Tracks calls) (hf : w.finished = false)
    (hst : w.net.states[w.state]? = some st) (hroot : w.atRoot = .ok false)
    (hleave : w.visitStop = .ok w') :
    ∃ t rest, calls = t :: rest ∧ w.net.goesOn? t.state = some w'.state := by
  obtain ⟨c, l, ha, hcalled⟩ := h.running hf
  obtain ⟨_, _, d, l', s, cst, _, first, rfl, hcall, -, -, -, -, hgoes, rfl⟩ :=
    ha.comesBack hst hroot hleave
  obtain ⟨t, rest, rfl, hinvoking, -⟩ := hcalled.tail
  obtain rfl := Option.some.inj (hcall.invoking.symm.trans hinvoking)
  exact ⟨t, rest, rfl, by rw [Network.goesOn?, hcall.state, Option.bind_some, hgoes]⟩

/-- The parse goes on where `goes` says for each of the calls that it is inside of: its follow
states are these, outermost first, and a return goes to the innermost. -/
structure ComesBack (w : Walker) (calls : List Taken) (goes : Taken → Option Nat) : Prop where
  follow : w.followStates = .ok (calls.filterMap goes).reverse
  leave : ∀ st w', w.finished = false → w.net.states[w.state]? = some st → st.isRuleStop = true →
    w.atRoot = .ok false → w.visitStop = .ok w' → ∃ t rest, calls = t :: rest ∧
    goes t = some w'.state

theorem Tracks.comesBack (h : w.Tracks calls) : w.ComesBack calls fun t => w.net.goesOn? t.state :=
  ⟨h.followStates_eq, fun _ _ hf hst _ => h.visitStop hf hst⟩

/-- That is behind the calls themselves when calls out of one state agree. -/
theorem Tracks.comesBack_of_callsAgree (h : w.Tracks calls) (hagree : w.net.CallsAgree) :
    w.ComesBack calls fun t => some t.call.follow := by
  have hcalls : ∀ t ∈ calls, w.net.goesOn? t.state = some t.call.follow := by
    cases hf : w.finished with
    | true =>
      rw [(h.done hf).2]
      exact fun _ ht => nomatch ht
    | false =>
      obtain ⟨c, l, -, hcalled⟩ := h.running hf
      exact hcalled.goesOn?_eq hagree
  refine ⟨by rw [h.comesBack.follow, List.filterMap_congr hcalls],
    fun st w' hf hst hstop hroot hleave => ?_⟩
  obtain ⟨t, rest, rfl, ht⟩ := h.comesBack.leave st w' hf hst hstop hroot hleave
  exact ⟨t, rest, rfl, (hcalls t List.mem_cons_self).symm.trans ht⟩

end Walker

namespace Session

variable {net : Network} {s : Session} {w : Walker}

theorem inside_of_answers (hs : s.Begins net) (asks : List Ask)
    (hw : (asks.foldl answer s).walker = some w) : ∃ calls, Walker.Inside net w calls :=
  answers_keep (P := fun w => ∃ calls, Walker.Inside net w calls)
    (fun _ _ _ hroot => ⟨[], .enter hroot⟩)
    (fun _ _ _ hf ⟨_, h⟩ hmove => Walker.Inside.move h hf hmove) hs asks hw

/-- Over a loaded network with enclosed rules, the parse of a session goes on behind the first calls
of the states that it has called rules from, whatever is asked of the session. -/
theorem comesBack_of_enclosed {words : List Wire.Word} {options : LoadOptions}
    (hload : loadWords words options = .ok net) (henc : net.Enclosed) (hs : s.Begins net)
    (asks : List Ask) (hw : (asks.foldl answer s).walker = some w) :
    ∃ calls, Walker.Inside net w calls ∧ w.ComesBack calls fun t => net.goesOn? t.state := by
  obtain ⟨calls, hinside⟩ := inside_of_answers hs asks hw
  obtain ⟨rfl, htracks⟩ := hinside.tracks (loadWords_wired hload).1 henc (loadWords_marks hload)
  exact ⟨calls, hinside, htracks.comesBack⟩

/-- If moreover all calls out of one state go on in the same state, it goes on behind the very calls
that it has taken. -/
theorem comesBack_of_callsAgree {words : List Wire.Word} {options : LoadOptions}
    (hload : loadWords words options = .ok net) (henc : net.Enclosed) (hagree : net.CallsAgree)
    (hs : s.Begins net) (asks : List Ask) (hw : (asks.foldl answer s).walker = some w) :
    ∃ calls, Walker.Inside net w calls ∧ w.ComesBack calls fun t => some t.call.follow := by
  obtain ⟨calls, hinside⟩ := inside_of_answers hs asks hw
  obtain ⟨rfl, htracks⟩ := hinside.tracks (loadWords_wired hload).1 henc (loadWords_marks hload)
  exact ⟨calls, hinside, htracks.comesBack_of_callsAgree hagree⟩

end Session

namespace Wire

/-- State 4 of rule 0 has two calls of rule 1, behind which the symbols 1 and 2 are matched; rule 1
matches 3. -/
def twoCalls : List Word :=
  parserWords [[2, 0], [7, 0], [2, 1], [7, 1], [11, 0], [1, 0], [1, 0], [1, 1]] [0, 2]
    [eps 0 4, callOf 4 5 2 1, callOf 4 6 2 1, atom 5 1 1, atom 6 1 2, eps 2 7, atom 7 3 3] [4]

end Wire

namespace Walker

open Wire

/-- Where a parse comes to by some visits that do not fail, with the calls that it is inside of. -/
def visits : Nat → Walker × List Taken → Option (Walker × List Taken)
  | 0, p => some p
  | n + 1, (w, calls) =>
    match w.net.states[w.state]?, w.visit with
    | some st, .ok (.ok next) =>
      if w.finished || st.isRuleStop then none
      else visits n (next, (w.callTaken?.map (Taken.mk w.state)).toList ++ calls)
    | _, _ => none

theorem Inside.visits {net : Network} {n : Nat} {w w' : Walker} {calls calls' : List Taken}
    (h : Inside net w calls) (hn : Walker.visits n (w, calls) = some (w', calls')) :
    Inside net w' calls' := by
  induction n generalizing w calls with
  | zero =>
    obtain ⟨rfl, rfl⟩ := Prod.mk.inj (Option.some.inj hn)
    exact h
  | succ n ih =>
    rw [Walker.visits] at hn
    split at hn
    · rename_i hst hvisit
      split at hn
      · cases hn
      · rename_i hgoes
        simp only [Bool.or_eq_true, not_or, Bool.not_eq_true] at hgoes
        exact ih (h.visit hgoes.1 hst hgoes.2 hvisit) hn
    · cases hn

/-- On the symbols 3 and 2 the second call is taken, but the return from it goes on behind the
first. -/
theorem strays_twoCalls : loadWords twoCalls { optimize := false } = .ok (loaded twoCalls) ∧
    (loaded twoCalls).Enclosed ∧ ∃ w w' calls, Inside (loaded twoCalls) w calls ∧
      calls.map (fun t => (t.state, t.call.follow)) = [(4, 6)] ∧ w.followStates = .ok [5] ∧
      w.visitStop = .ok w' ∧ w'.state = 5 := by
  refine ⟨loadWords_loaded (by decide +kernel), by decide +kernel, ?_⟩
  have hrun : (({ net := loaded twoCalls, tokens := .ofList [{ (default : Token) with type := 3 },
      { (default : Token) with type := 2 }] } : Walker).enterRoot 0).toOption.any
      (fun v => (Walker.visits 4 (v, [])).any fun p => p.2.map
      (fun t => (t.state, t.call.follow)) == [(4, 6)] && p.1.followStates.toOption.any (· == [5]) &&
      p.1.visitStop.toOption.any (·.state == 5)) = true := by
    decide +kernel
  obtain ⟨v, hroot, hrun⟩ := ok_of_any hrun
  rw [Option.any_eq_true] at hrun
  obtain ⟨⟨w, calls⟩, hvisits, hrun⟩ := hrun
  simp only [Bool.and_eq_true, beq_iff_eq] at hrun
  obtain ⟨⟨hcalls, hfollow⟩, hleave⟩ := hrun
  obtain ⟨follow, hfollow, hlists⟩ := ok_of_any hfollow
  obtain rfl := eq_of_beq hlists
  obtain ⟨w', hleave, hstate⟩ := ok_of_any hleave
  exact ⟨w, w', calls, .visits (.enter hroot) hvisits, hcalls, hfollow, hleave, eq_of_beq hstate⟩

end Walker

end GrammarWalk
