import GrammarWalk.Proofs.Network.Cycles
import GrammarWalk.Proofs.Parse.Trail
import GrammarWalk.Proofs.Search
import Mathlib.Algebra.Order.BigOperators.Group.Finset
import Mathlib.Data.Fintype.BigOperators
import Mathlib.Data.Set.Card
import Mathlib.Order.CompletePartialOrder
import Mathlib.Tactic.Ring

/-! Closing a front over the moves without input: it ends within its bound, since there are only so
many trails, and it finds all of them that can be reached. -/

namespace GrammarWalk.Choice

variable {s : Setting} {t t' : Trail} {st : State} {e : Edge} {a : Nat} {f f' f'' : Front}

section range

/-- What a choice looks up is there. -/
structure Setting.InRange (s : Setting) : Prop where
  net : s.net.InRange
  follow : ∀ q ∈ s.follow, q < s.net.states.size

/--
The trail stands on a state, its calls go on in states, and there are no more of them than allowed.
If it has yet to take its edge of the decision, then it stands on a state that has this edge and
ends no rule.
-/
structure Trail.InRange (s : Setting) (t : Trail) : Prop where
  state : t.state < s.net.states.size
  stack : ∀ q ∈ t.stack, q < s.net.states.size
  calls : t.stack.length ≤ maxCalls
  outer : t.outer ≤ s.follow.size
  only : ∀ i, t.only = some i →
    ∃ st, s.net.states[t.state]? = some st ∧ st.isRuleStop = false ∧ i < st.edges.length

theorem Trail.Takes.within (h : s.InRange) (hst : s.net.states[t.state]? = some st)
    (he : t.Takes st e) : e.Within s.net.states.size := by
  unfold Trail.Takes at he
  split at he
  · exact (h.net.within hst).edges e (List.mem_of_getElem? he)
  · exact (h.net.within hst).followed e he

theorem Trail.InRange.not_only (ht : t.InRange s) (hst : s.net.states[t.state]? = some st)
    (hstop : st.isRuleStop = true) {i : Nat} : t.only ≠ some i := by
  intro hi
  obtain ⟨st', hst', hns, -⟩ := ht.only i hi
  obtain rfl := Option.some.inj (hst.symm.trans hst')
  simp [hstop] at hns

theorem Trail.InRange.goto (ht : t.InRange s) {q : Nat} (hq : q < s.net.states.size) :
    { t with state := q, only := none : Trail }.InRange s :=
  ⟨hq, ht.stack, ht.calls, ht.outer, by simp⟩

theorem Moves.inRange (h : s.InRange) (hm : Moves s t t') (ht : t.InRange s) : t'.InRange s := by
  cases hm with
  | back hst hstop hstack =>
    have hq := ht.stack
    have hcalls := ht.calls
    rw [hstack] at hq hcalls
    rw [List.forall_mem_cons] at hq
    exact ⟨hq.1, hq.2, Nat.le_of_succ_le hcalls, ht.outer,
      fun i hi => (ht.not_only hst hstop hi).elim⟩
  | out hst hstop hstack houter hcaller =>
    refine ⟨h.follow _ (Array.mem_of_getElem? hcaller), ht.stack, ht.calls, ?_,
      fun i hi => (ht.not_only hst hstop hi).elim⟩
    have := ht.outer
    dsimp only
    omega
  | push hst hns he htail hcalls =>
    have hw := he.within h hst
    have hgo := ht.goto hw.1
    exact ⟨hgo.state, List.forall_mem_cons.2 ⟨hw.2 _ rfl, ht.stack⟩, hcalls, ht.outer, hgo.only⟩
  | tail hst hns he htail =>
    have hgo := ht.goto (he.within h hst).1
    exact ⟨hgo.state, hgo.stack, hgo.calls, hgo.outer, hgo.only⟩
  | precedence hst hns he hlevel => exact ht.goto (he.within h hst).1
  | silent hst hns he hsilent hcall hlevel => exact ht.goto (he.within h hst).1

theorem Reads.inRange (h : s.InRange) {symbol : Int} (hr : Reads s symbol t t') (ht : t.InRange s) :
    t'.InRange s := by
  obtain ⟨st, e, hst, -, he, -, rfl⟩ := hr
  exact ht.goto (he.within h hst).1

theorem Moves.alternative_eq (hm : Moves s t t') : t'.alternative = t.alternative := by
  cases hm <;> rfl

theorem returns_edgesOf (ht : t.InRange s) (hst : s.net.states[t.state]? = some st) :
    Returns (edgesOf st t) fun edges => ∀ e, e ∈ edges ↔ t.Takes st e := by
  have hex : ∃ edges, edgesOf st t = .ok edges := by
    unfold edgesOf
    split
    · rename_i i hi
      obtain ⟨st', hst', -, hlt⟩ := ht.only i hi
      obtain rfl := Option.some.inj (hst.symm.trans hst')
      exact ⟨[st.edges[i]], by rw [List.getElem?_eq_getElem hlt]; rfl⟩
    · exact ⟨_, rfl⟩
  obtain ⟨edges, hedges⟩ := hex
  exact ⟨edges, hedges, fun e => takes_of_edgesOf hedges⟩

end range

section moves

theorem moves_iff_along (hst : s.net.states[t.state]? = some st) (hns : st.isRuleStop = false) :
    Moves s t t' ↔ ∃ e, t.Takes st e ∧ t.along s.precedence e = some t' := by
  constructor
  · intro hm
    have same {st' : State} (h : s.net.states[t.state]? = some st') : st' = st :=
      Option.some.inj (h.symm.trans hst)
    cases hm with
    | back h hstop => simp [same h, hns] at hstop
    | out h hstop => simp [same h, hns] at hstop
    | push h _ he htail hcalls =>
      exact ⟨_, same h ▸ he, by simp [Trail.along, htail, Nat.not_le.2 hcalls, Edge.target]⟩
    | tail h _ he htail => exact ⟨_, same h ▸ he, by simp [Trail.along, htail, Edge.target]⟩
    | precedence h _ he hlevel =>
      refine ⟨_, same h ▸ he, ?_⟩
      simp only [Trail.along, Edge.target]
      refine if_neg ?_
      simpa [List.isEmpty_iff, and_imp, Int.not_lt] using hlevel
    | @silent st' e h _ he hsilent hcall hlevel =>
      refine ⟨e, same h ▸ he, ?_⟩
      cases e with
      | call c => exact nomatch hcall
      | precedence target level => exact (hlevel target level rfl).elim
      | epsilon | predicate | action => rfl
      | range | atom | set | notSet | wildcard => exact nomatch hsilent
  · rintro ⟨e, he, ht⟩
    have plain (hsilent : e.isSilent = true) (hcall : e.call? = none)
        (hlevel : ∀ target level, e ≠ .precedence target level)
        (ht : some { t with state := e.target, only := none } = some t') : Moves s t t' :=
      Option.some.inj ht ▸ .silent hst hns he hsilent hcall hlevel
    cases e with
    | call c =>
      simp only [Trail.along] at ht
      split at ht
      · exact Option.some.inj ht ▸ .tail hst hns he ‹_›
      · split at ht
        · exact nomatch ht
        · exact Option.some.inj ht ▸ .push hst hns he (Bool.not_eq_true _ ▸ ‹_›) (Nat.not_le.1 ‹_›)
    | precedence target level =>
      simp only [Trail.along] at ht
      split at ht
      · exact nomatch ht
      · rename_i hlevel
        refine Option.some.inj ht ▸ .precedence hst hns he ?_
        simpa [List.isEmpty_iff, and_imp, Int.not_lt] using hlevel
    | epsilon | predicate | action => exact plain rfl rfl nofun ht
    | range | atom | set | notSet | wildcard => exact nomatch ht

/-- From the end of a rule, a trail goes back to the last call, or out of the rule it began in. -/
theorem moves_iff_of_stop (hst : s.net.states[t.state]? = some st) (hstop : st.isRuleStop = true) :
    Moves s t t' ↔
      (∃ caller stack, t.stack = caller :: stack ∧ t' = { t with state := caller, stack }) ∨
      ∃ outer caller, t.stack = [] ∧ t.outer = outer + 1 ∧ s.follow[outer]? = some caller ∧
        t' = { t with state := caller, outer, leftOrigin := true } := by
  constructor
  · intro hm
    have same {st' : State} (h : s.net.states[t.state]? = some st') : st' = st :=
      Option.some.inj (h.symm.trans hst)
    cases hm with
    | back _ _ hstack => exact .inl ⟨_, _, hstack, rfl⟩
    | out _ _ hstack houter hcaller => exact .inr ⟨_, _, hstack, houter, hcaller, rfl⟩
    | push h hns | tail h hns | precedence h hns | silent h hns => simp [same h, hstop] at hns
  · rintro (⟨caller, stack, hstack, rfl⟩ | ⟨outer, caller, hstack, houter, hcaller, rfl⟩)
    · exact .back hst hstop hstack
    · exact .out hst hstop hstack houter hcaller

theorem expects_iff (hst : s.net.states[t.state]? = some st) (hns : st.isRuleStop = false) :
    Waits s t ↔ ∃ e, t.Takes st e ∧ e.isSilent = false := by
  constructor
  · rintro (⟨st', hst', hstop, -⟩ | ⟨st', hst', -, he⟩)
    · obtain rfl := Option.some.inj (hst.symm.trans hst')
      simp [hns] at hstop
    · obtain rfl := Option.some.inj (hst.symm.trans hst')
      exact he
  · exact fun he => .inr ⟨st, hst, hns, he⟩

theorem waits_iff_of_stop (hst : s.net.states[t.state]? = some st) (hstop : st.isRuleStop = true) :
    Waits s t ↔ t.stack = [] ∧ t.outer = 0 := by
  constructor
  · rintro (⟨st', hst', -, h⟩ | ⟨st', hst', hns, -⟩)
    · exact h
    · obtain rfl := Option.some.inj (hst.symm.trans hst')
      simp [hstop] at hns
  · exact fun h => .inl ⟨st, hst, hstop, h⟩

end moves

section closing

def Front.Seen (f : Front) (t : Trail) : Prop := f.seen.contains t.stack.length t = true

theorem Front.seen_insert {x : Trail} {trails : List Trail} :
    ({ trails, seen := f.seen.insert t.stack.length t } : Front).Seen x ↔ x = t ∨ f.Seen x := by
  exact Visited.contains_insert_own fun t : Trail => t.stack.length

def fronts : Fronts Front Trail where
  listed := Front.trails
  seen := Front.Seen

/-- A front has been closed over the moves from `roots`. -/
abbrev Closed (s : Setting) (roots : Trail → Prop) : Front → Front → Prop :=
  fronts.Closed (Moves s) (Waits s) roots

theorem closed_visit (ht : ¬ f.Seen t) {l : List Trail}
    (h :
      Closed s (Moves s t) { trails := f.trails ++ l, seen := f.seen.insert t.stack.length t } f')
    (hl : Waits s t ∧ l = [t] ∨ ¬ Waits s t ∧ l = []) : Closed s (· = t) f f' :=
  .visit ht (fun _ => Front.seen_insert) rfl h hl

/-- From every trail that `t` turns into in one move, closing with this fuel finds all. -/
abbrev Resumes (s : Setting) (fuel : Nat) : Trail → Front → Prop :=
  fronts.Resumes (Moves s) (Waits s) (close s fuel)

theorem returns_close_edges {fuel : Nat} {edges : List Edge}
    (hst : s.net.states[t.state]? = some st)
    (hns : st.isRuleStop = false) (hedges : ∀ e, e ∈ edges ↔ t.Takes st e)
    (hnext : Resumes s fuel t f)
    {f₀ : Front} (hgrows : ∀ x, x = t ∨ f.Seen x → f₀.Seen x) :
    Returns (edges.foldlM (fun front e => match t.along s.precedence e with
      | some next => close s fuel next front
      | none => pure front) f₀) (Closed s (Moves s t) f₀) := by
  refine (Fronts.returns_closed_foldlM (fun e x => t.along s.precedence e = some x) f₀
    fun e he f' hf' => ?_).imp fun f' hf' => hf'.congr fun x => ?_
  · split
    · rename_i next hsome
      have hm : Moves s t next := (moves_iff_along hst hns).2 ⟨e, (hedges e).1 he, hsome⟩
      refine (hnext next f' hm fun x hx => hf' x (hgrows x hx)).imp fun f'' hf'' =>
        hf''.congr fun x => ?_
      simp [hsome, eq_comm]
    · rename_i hnone
      exact returns_pure (.none (by simp [hnone]))
  · simp [moves_iff_along hst hns, hedges]

theorem returns_close_succ {fuel : Nat} (ht : t.InRange s) (hseen : ¬ f.Seen t)
    (hnext : Resumes s fuel t f) : Returns (close s (fuel + 1) t f) (Closed s (· = t) f) := by
  unfold close
  have hseen' : ¬ f.seen.contains t.stack.length t = true := hseen
  rw [if_neg hseen']
  have hmarked (x : Trail) : x = t ∨ f.Seen x →
      ({ f with seen := f.seen.insert t.stack.length t } : Front).Seen x := Front.seen_insert.2
  refine (Network.returns_state ht.state).bind fun st hst => ?_
  split
  · rename_i hstop
    have hwaits := waits_iff_of_stop hst hstop
    have hmoves (x : Trail) : Moves s t x ↔ _ := moves_iff_of_stop hst hstop
    split
    · rename_i caller stack hstack
      have honly (x : Trail) : x = { t with state := caller, stack } ↔ Moves s t x := by
        simp [hmoves, hstack]
      refine (hnext _ _ ((honly _).1 rfl) hmarked).imp fun f' hf' => ?_
      exact closed_visit hseen (by simpa using hf'.congr honly)
        (.inr ⟨by simp [hwaits, hstack], rfl⟩)
    · rename_i outer hstack houter
      have hlt : outer < s.follow.size := by
        have := ht.outer
        omega
      refine (returns_ofLookup (P := (s.follow[outer]? = some ·)) (Array.getElem?_eq_getElem hlt)
        (Array.getElem?_eq_getElem hlt)).bind fun caller hcaller => ?_
      have honly (x : Trail) : x = { t with state := caller, outer, leftOrigin := true } ↔
          Moves s t x := by
        simp [hmoves, hstack, houter, hcaller]
      refine (hnext _ _ ((honly _).1 rfl) hmarked).imp fun f' hf' => ?_
      exact closed_visit hseen (by simpa using hf'.congr honly)
        (.inr ⟨by simp [hwaits, houter], rfl⟩)
    · rename_i hstack houter
      refine returns_pure
        (closed_visit hseen (.none fun x => ?_) (.inl ⟨by simp [hwaits, hstack, houter], rfl⟩))
      simp [hmoves, hstack, houter]
  · rename_i hns
    have hns : st.isRuleStop = false := Bool.not_eq_true _ ▸ hns
    refine (returns_edgesOf ht hst).bind fun edges hedges => ?_
    have hwaits : Waits s t ↔ edges.all Edge.isSilent = false := by
      simp [expects_iff hst hns, hedges]
    split
    · rename_i hsilent
      refine (returns_close_edges hst hns hedges hnext hmarked).imp fun f' hf' => ?_
      exact closed_visit hseen (by simpa using hf') (.inr ⟨by simp [hwaits, hsilent], rfl⟩)
    · rename_i hsilent
      refine (returns_close_edges hst hns hedges hnext fun x hx => ?_).imp fun f' hf' => ?_
      · exact hmarked x hx
      exact closed_visit hseen hf' (.inl ⟨by simpa [hwaits] using hsilent, rfl⟩)

end closing

section bound

/-- A trail of a known alternative, as numbers below the base of the bound on closing. -/
def Trail.code (t : Trail) : Nat × Nat × Nat × Nat × (Fin maxCalls → Nat) :=
  (t.state, place t.only, t.outer, t.leftOrigin.toNat, fun i => place t.stack[i.val]?)

theorem eq_of_code {t u : Trail} (ht : t.InRange s) (hu : u.InRange s)
    (halternative : t.alternative = u.alternative) (h : t.code = u.code) : t = u := by
  simp only [Trail.code, Prod.mk.injEq] at h
  obtain ⟨hstate, honly, houter, hleft, hstack⟩ := h
  have hstack : t.stack = u.stack := eq_of_places ht.calls hu.calls hstack
  have hleft : t.leftOrigin = u.leftOrigin := by
    cases ht : t.leftOrigin <;> cases hu : u.leftOrigin <;> simp_all
  obtain ⟨⟩ := t
  obtain ⟨⟩ := u
  simp_all [place_injective.eq_iff]

theorem edges_le_edgeCount {net : Network} {q : Nat} (hst : net.states[q]? = some st) :
    st.edges.length ≤ net.edgeCount := by
  have hone := Finset.single_le_sum (f := fun q => (net.states[q]?.map (·.edges.length)).getD 0)
    (fun _ _ => Nat.zero_le _) (Finset.mem_range.2 (Network.lt_size hst))
  simp only [hst, Option.map_some, Option.getD_some] at hone
  exact hone.trans (Network.sum_edges_le fun st => Nat.le_add_right _ _)

/-- The numbers below `b` that a code can be made of. -/
def codes (b : Nat) : Finset (Nat × Nat × Nat × Nat × (Fin maxCalls → Nat)) :=
  Finset.range b ×ˢ Finset.range b ×ˢ Finset.range b ×ˢ Finset.range b ×ˢ
    Fintype.piFinset fun _ => Finset.range b

theorem card_codes (b : Nat) : (codes b).card = b ^ (maxCalls + 4) := by
  simp only [codes, Finset.card_product, Finset.card_range, Fintype.card_piFinset,
    Finset.prod_const, Finset.card_univ, Fintype.card_fin]
  ring

theorem code_mem_codes (ht : t.InRange s) :
    t.code ∈ codes (s.net.states.size + s.net.edgeCount + s.follow.size + 2) := by
  have hstate := ht.state
  have houter := ht.outer
  have honly : place t.only ≤ s.net.edgeCount := by
    cases hi : t.only with
    | none => exact Nat.zero_le _
    | some i =>
      obtain ⟨st, hst, -, hlt⟩ := ht.only i hi
      have := edges_le_edgeCount hst
      simp only [place, Option.elim]
      omega
  have hleft := Bool.toNat_le t.leftOrigin
  have hstack (i : Fin maxCalls) := place_le ht.stack i
  simp only [codes, Trail.code, Finset.mem_product, Finset.mem_range, Fintype.mem_piFinset]
  exact ⟨by omega, by omega, by omega, by omega, fun i => by have := hstack i; omega⟩

theorem ncard_lt_closeBound (s : Setting) (a : Nat) :
    {t : Trail | t.InRange s ∧ t.alternative = a}.Finite ∧
      {t : Trail | t.InRange s ∧ t.alternative = a}.ncard < closeBound s := by
  obtain ⟨hfin, hle⟩ :=
    ncard_le_of_code (P := fun t : Trail => t.InRange s ∧ t.alternative = a) Trail.code
    (fun t ht => code_mem_codes ht.1) fun t u ht hu => eq_of_code ht.1 hu.1 (ht.2.trans hu.2.symm)
  rw [card_codes] at hle
  exact ⟨hfin, hle.trans_lt (Nat.pow_lt_pow_right (by omega) (by simp))⟩

end bound

/-- Closing a front over a trail in range finds all that the trail can turn into without input. -/
theorem returns_close (h : s.InRange) (ht : t.InRange s) (f : Front) :
    Returns (close s (closeBound s) t f) (Closed s (· = t) f) := by
  obtain ⟨hfin, hlt⟩ := ncard_lt_closeBound s t.alternative
  refine Fronts.returns_of_unseen (P := fun x => x.InRange s ∧ x.alternative = t.alternative) hfin
    (fun x y hm hx => ⟨hm.inRange h hx.1, hm.alternative_eq.trans hx.2⟩) (fun fuel x f hseen => ?_)
    (fun fuel x f hx hseen hnext => returns_close_succ hx.1 hseen hnext) ⟨ht, rfl⟩
    ((Set.ncard_le_ncard (fun x hx => hx.1) hfin).trans_lt hlt)
  have hseen' : f.seen.contains x.stack.length x = true := hseen
  unfold close
  rw [if_pos hseen']
  exact returns_pure (.seen hseen)

end GrammarWalk.Choice
