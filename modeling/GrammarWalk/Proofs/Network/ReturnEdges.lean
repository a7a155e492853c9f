import GrammarWalk.Network.ReturnEdges
import GrammarWalk.Proofs.Network.Run

/-! The return edges of a network are complete and unique: the stop state of each rule gets one for
each return that some call of the rule wants, in the order in which the calls stand, and nothing
else changes. -/

namespace GrammarWalk

/-- A list of values, each with its place, whose places are in order: without its duplicates it is
in the order of the first places. -/
theorem pairwise_eraseDups {α β : Type} [BEq β] [LawfulBEq β] {R : α → α → Prop} :
    ∀ {l : List (α × β)}, (l.Pairwise fun x y => R x.1 y.1) →
      (l.map Prod.snd).eraseDups.Pairwise fun a b => ∃ p, (p, a) ∈ l ∧ ∀ q, (q, b) ∈ l → R p q
  | [], _ => List.Pairwise.nil
  | (p, a) :: l, h => by
    obtain ⟨hfirst, hl⟩ := List.pairwise_cons.1 h
    let rest := l.filter fun x => !x.2 == a
    have hrest : ((l.map Prod.snd).filter fun b => !b == a) = rest.map Prod.snd := by
      rw [List.filter_map]
      rfl
    have hmem {q : α} {b : β} (hb : b ∈ (rest.map Prod.snd).eraseDups) (hq : (q, b) ∈ (p, a) :: l) :
        (q, b) ∈ rest := by
      rw [List.mem_eraseDups, List.mem_map] at hb
      obtain ⟨⟨_, _⟩, hin, rfl⟩ := hb
      have hne := (List.mem_filter.1 hin).2
      rcases List.mem_cons.1 hq with heq | hq
      · simp_all
      · exact List.mem_filter.2 ⟨hq, hne⟩
    rw [List.map_cons, List.eraseDups_cons, hrest, List.pairwise_cons]
    constructor
    · intro b hb
      exact ⟨p, List.mem_cons_self, fun q hq => hfirst (q, b) (List.mem_of_mem_filter (hmem hb hq))⟩
    · refine (pairwise_eraseDups (hl.filter _)).imp_of_mem fun {b c} hb hc hbc => ?_
      obtain ⟨q, hq, hlast⟩ := hbc
      exact ⟨q, List.mem_cons_of_mem _ (List.mem_of_mem_filter hq),
        fun q' hq' => hlast q' (hmem hc hq')⟩
termination_by l => l.length
decreasing_by exact Nat.lt_succ_of_le (List.length_filter_le _ _)

namespace Network

/-- The edge that goes back to where the caller goes on. -/
def Return.edge (r : Return) : Edge := .epsilon r.follow r.mark

/--
The edge at place `p`, given by a state and a place among its edges, is a call that wants the return
`r`: one from the rule that it enters to where it goes on, with a mark if that is a precedence rule
called at level 0. A call from a rule that is not left-factored into one that is wants none.
-/
def Wants (net : Network) (p : Nat × Nat) (r : Return) : Prop :=
  ∃ st c, net.states[p.1]? = some st ∧ st.edges[p.2]? = some (.call c) ∧
    r.rule = net.calledRule c ∧ r.follow = c.follow ∧
    r.mark = (if net.isPrecedenceRule r.rule = true ∧ c.precedence = 0 then some r.rule else none) ∧
    (net.isLeftFactored r.rule = true → ∃ caller, st.rule = some caller ∧
    net.isLeftFactored caller = true)

/-- The rule of the return has a stop state in the table. -/
def hasStop (net : Network) (r : Return) : Bool := r.rule < net.ruleStops.size

/-- Some call that wants `r` stands before all that want `r'`. -/
def Earlier (net : Network) (r r' : Return) : Prop :=
  ∃ p, net.Wants p r ∧ ∀ q, net.Wants q r' → Prod.Lex (· < ·) (· < ·) p q

variable {net net' : Network} {r : Return} {rs : List Return}

theorem Earlier.ne {r' : Return} (h : net.Earlier r r') : r ≠ r' := by
  rintro rfl
  obtain ⟨p, hp, hlast⟩ := h
  rcases Prod.lex_def.1 (hlast p hp) with h | ⟨-, h⟩ <;> exact Nat.lt_irrefl _ h

theorem returnOf_eq_some {st : State} {c : Call} : net.returnOf st.rule c = some r ↔
    r.rule = net.calledRule c ∧ r.follow = c.follow ∧
    r.mark = (if net.isPrecedenceRule r.rule = true ∧ c.precedence = 0 then some r.rule else none) ∧
    (net.isLeftFactored r.rule = true → ∃ caller, st.rule = some caller ∧
      net.isLeftFactored caller = true) := by
  obtain ⟨rule, follow, mark⟩ := r
  simp only [returnOf]
  split
  · rename_i h
    simp only [Bool.and_eq_true, Bool.not_eq_true', Option.any_eq_false] at h
    constructor
    · intro hsome
      cases hsome
    · rintro ⟨hrule, -, -, hleft⟩
      obtain ⟨caller, hcaller, hfactored⟩ := hleft (hrule ▸ h.2)
      exact absurd hfactored (by simpa using h.1 caller hcaller)
  · rename_i h
    simp only [Bool.and_eq_true, Bool.not_eq_true', not_and, Bool.not_eq_true, Option.any_eq_false]
      at h
    simp only [Option.some.injEq, Return.mk.injEq, Bool.and_eq_true, beq_iff_eq]
    constructor
    · rintro ⟨rfl, rfl, rfl⟩
      refine ⟨rfl, rfl, rfl, fun hleft => ?_⟩
      by_contra hnone
      have hplain : ∀ caller, st.rule = some caller → net.isLeftFactored caller = false :=
        fun caller hcaller =>
        Bool.eq_false_iff.2 fun hfactored => hnone ⟨caller, hcaller, hfactored⟩
      exact absurd ((h hplain).symm.trans hleft) Bool.noConfusion
    · rintro ⟨rfl, rfl, rfl, -⟩
      exact ⟨rfl, rfl, rfl⟩

section order

/-- The returns that the calls among the edges of a state want, each with the place of its call. -/
def placedOf (net : Network) (st : State) (s : Nat) : List ((Nat × Nat) × Return) :=
  st.edges.zipIdx.filterMap fun x => (x.1.call?.bind (net.returnOf st.rule)).map ((s, x.2), ·)

/-- The same for all states. -/
def placed (net : Network) : List ((Nat × Nat) × Return) :=
  net.states.toList.zipIdx.flatMap fun x => net.placedOf x.1 x.2

theorem mem_placedOf {st : State} {s : Nat} {p : Nat × Nat} : (p, r) ∈ net.placedOf st s ↔
    p.1 = s ∧ ∃ c, st.edges[p.2]? = some (.call c) ∧ net.returnOf st.rule c = some r := by
  obtain ⟨t, i⟩ := p
  simp only [placedOf, List.mem_filterMap, List.mem_zipIdx_iff_getElem?, Option.map_eq_some_iff,
    Prod.mk.injEq, Option.bind_eq_some_iff, Prod.exists]
  constructor
  · rintro ⟨e, j, he, r', ⟨c, hc, hr⟩, ⟨rfl, rfl⟩, rfl⟩
    exact ⟨rfl, c, Edge.call?_eq_some.1 hc ▸ he, hr⟩
  · rintro ⟨rfl, c, hc, hr⟩
    exact ⟨_, _, hc, r, ⟨c, rfl, hr⟩, ⟨rfl, rfl⟩, rfl⟩

theorem mem_placed {p : Nat × Nat} : (p, r) ∈ net.placed ↔ net.Wants p r := by
  simp only [placed, List.mem_flatMap, List.mem_zipIdx_iff_getElem?, Prod.exists, mem_placedOf,
    Wants, returnOf_eq_some, Array.getElem?_toList]
  constructor
  · rintro ⟨st, s, hst, rfl, c, hc, hr⟩
    exact ⟨st, c, hst, hc, hr⟩
  · rintro ⟨st, c, hst, hc, hr⟩
    exact ⟨st, _, hst, rfl, c, hc, hr⟩

theorem pairwise_placed : net.placed.Pairwise fun x y => Prod.Lex (· < ·) (· < ·) x.1 y.1 := by
  have increasing {α : Type} (l : List α) : l.zipIdx.Pairwise fun x y => x.2 < y.2 := by
    rw [← List.pairwise_map (R := (· < ·)) (f := Prod.snd), List.zipIdx_map_snd]
    exact List.pairwise_lt_range'
  refine List.pairwise_flatMap.2 ⟨fun x _ => ?_, (increasing _).imp fun {x y} hxy a ha b hb => ?_⟩
  · refine List.pairwise_filterMap.2 ((increasing _).imp fun {a b} hab c hc d hd => ?_)
    obtain ⟨_, -, rfl⟩ := Option.map_eq_some_iff.1 hc
    obtain ⟨_, -, rfl⟩ := Option.map_eq_some_iff.1 hd
    exact Prod.Lex.right _ hab
  · obtain ⟨⟨s, i⟩, ra⟩ := a
    obtain ⟨⟨t, j⟩, rb⟩ := b
    obtain ⟨rfl, -⟩ := mem_placedOf.1 ha
    obtain ⟨rfl, -⟩ := mem_placedOf.1 hb
    exact Prod.Lex.left _ _ hxy

theorem returns_eq : net.returns = (net.placed.map Prod.snd).eraseDups := by
  have edges (rule : Option Nat) (s : Nat) (es : List Edge) : ∀ n,
      ((es.zipIdx n).filterMap fun x => (x.1.call?.bind (net.returnOf rule)).map ((s, x.2),
      ·)).map Prod.snd =
        es.filterMap fun e => e.call?.bind (net.returnOf rule) := by
    induction es with
    | nil => exact fun _ => rfl
    | cons e es ih =>
      intro n
      rw [List.zipIdx_cons, List.filterMap_cons, List.filterMap_cons]
      cases e.call?.bind (net.returnOf rule) with
      | none => exact ih _
      | some r => exact congrArg (r :: ·) (ih _)
  have states (l : List State) :
      ∀ n, ((l.zipIdx n).flatMap fun x => net.placedOf x.1 x.2).map Prod.snd =
      l.flatMap fun st => st.edges.filterMap fun e => e.call?.bind (net.returnOf st.rule) := by
    induction l with
    | nil => exact fun _ => rfl
    | cons st l ih =>
      intro n
      rw [List.zipIdx_cons, List.flatMap_cons, List.flatMap_cons, List.map_append, ih]
      exact congrArg (· ++ _) (edges _ _ _ 0)
  rw [returns, placed, states]

theorem mem_returns_iff : r ∈ net.returns ↔ ∃ p, net.Wants p r := by
  rw [returns_eq, List.mem_eraseDups, List.mem_map]
  constructor
  · rintro ⟨⟨p, _⟩, hp, rfl⟩
    exact ⟨p, mem_placed.1 hp⟩
  · rintro ⟨p, hp⟩
    exact ⟨(p, r), mem_placed.2 hp, rfl⟩

theorem pairwise_returns (net : Network) : net.returns.Pairwise net.Earlier := by
  rw [returns_eq]
  refine (pairwise_eraseDups pairwise_placed).imp fun {a b} h => ?_
  obtain ⟨p, hp, hlast⟩ := h
  exact ⟨p, mem_placed.1 hp, fun q hq => hlast q (mem_placed.2 hq)⟩

end order

section edges

/-- The edges that returns add to a state: those of the rules that stop there. -/
def edgesAt (net : Network) (rs : List Return) (s : Nat) : List Edge :=
  (rs.filter fun r => net.ruleStops[r.rule]? = some s).map Return.edge

/-- What adding returns does: each state gets its edges, and nothing else changes. -/
structure Returned (net : Network) (rs : List Return) (net' : Network) : Prop where
  states : ∀ s, net'.states[s]? = net.states[s]?.map fun st : State =>
    { st with edges := st.edges ++ net.edgesAt rs s }
  tables : net' = { net with states := net'.states }

theorem Returned.nil : Returned net [] net where
  states s := by
    cases h : net.states[s]? with
    | none => rfl
    | some st => simp [edgesAt]
  tables := rfl

theorem returned_addEdge {stop : Nat} (h : net.ruleStops[r.rule]? = some stop) :
    Returned net [r] (net.addEdge stop r.edge) where
  states s := by
    rw [addEdge, getElem?_modify]
    by_cases hs : stop = s
    · subst hs
      simp [edgesAt, h, State.addEdge]
    · simp [edgesAt, h, hs]
  tables := rfl

theorem Returned.trans {mid : Network} {rs' : List Return} (h : Returned net rs mid)
    (h' : Returned mid rs' net') : Returned net (rs ++ rs') net' where
  states s := by
    have hstops : mid.ruleStops = net.ruleStops := by rw [h.tables]
    have hedges : mid.edgesAt rs' s = net.edgesAt rs' s := by rw [edgesAt, edgesAt, hstops]
    rw [h'.states, h.states, Option.map_map, hedges]
    cases net.states[s]? with
    | none => rfl
    | some st => simp [edgesAt, List.append_assoc]
  tables := by rw [h'.tables, h.tables]

/-- The returns of rules that have a stop state, if that exists, are added, and they are counted. -/
theorem returns_addReturns_exact (rs : List Return) : ∀ {net : Network},
    (∀ r s : Nat, net.ruleStops[r]? = some s → s < net.states.size) →
    Returns (net.addReturns rs) fun p =>
      p.1 = (rs.filter net.hasStop).length ∧ Returned net (rs.filter net.hasStop) p.2 := by
  induction rs with
  | nil => exact fun _ => returns_pure ⟨rfl, .nil⟩
  | cons r rs ih =>
    intro net hstops
    unfold Network.addReturns addReturn
    cases hstop : net.ruleStops[r.rule]? with
    | none =>
      have hout : ¬ r.rule < net.ruleStops.size := Nat.not_lt.2 (Array.getElem?_eq_none_iff.1 hstop)
      rw [List.filter_cons_of_neg (by simpa [hasStop] using hout)]
      refine (ih hstops).bind fun p hp => returns_pure ?_
      simpa using hp
    | some stop =>
      have hin : r.rule < net.ruleStops.size := (Array.getElem?_eq_some_iff.1 hstop).1
      rw [List.filter_cons_of_pos (by simpa [hasStop] using hin)]
      have hadd : Returned net [r] (net.addEdge stop r.edge) := returned_addEdge hstop
      refine Returns.bind (P := fun p => p = (1, net.addEdge stop r.edge)) ?_ ?_
      · exact (returns_ofLookup (Array.getElem?_eq_getElem (hstops _ _ hstop)) trivial).bind
          (P := fun _ => True) fun _ _ => returns_pure rfl
      · rintro _ rfl
        have hstops' : ∀ q s : Nat, (net.addEdge stop r.edge).ruleStops[q]? = some s →
            s < (net.addEdge stop r.edge).states.size := by
          rw [addEdge, size_modify]
          exact hstops
        refine (ih hstops').bind fun p hp => returns_pure ?_
        obtain ⟨hcount, hrest⟩ := hp
        refine ⟨?_, hadd.trans hrest⟩
        rw [hcount, List.length_cons, Nat.add_comm]
        rfl

end edges

/--
Return edges are complete and unique. If the stop states of all rules exist, then the network gets,
for each return that some call wants from a rule with a stop state, exactly one edge, appended to
that stop state. The edges stand in the order in which their returns are first wanted, by state and
then by edge; they are counted; and nothing else of the network changes.
-/
theorem withReturnEdges_exact
    (hstops : ∀ r s : Nat, net.ruleStops[r]? = some s → s < net.states.size) :
    ∃ (new : List Return) (net' : Network), net.withReturnEdges = .ok (new.length, net') ∧
      (∀ r : Return, r ∈ new ↔ r.rule < net.ruleStops.size ∧ ∃ p, net.Wants p r) ∧
      new.Nodup ∧ new.Pairwise net.Earlier ∧
      (∀ s, net'.states[s]? = net.states[s]?.map fun st : State =>
        { st with edges := st.edges ++ (new.filter fun r : Return =>
        net.ruleStops[r.rule]? = some s).map Return.edge }) ∧
      net' = { net with states := net'.states } := by
  obtain ⟨⟨count, net'⟩, hok, hcount, hreturned⟩ := returns_addReturns_exact net.returns hstops
  have horder := (pairwise_returns net).filter net.hasStop
  refine ⟨net.returns.filter net.hasStop, net', ?_, fun r => ?_, horder.imp Earlier.ne, horder,
    hreturned.states, hreturned.tables⟩
  · exact hok.trans (congrArg (fun n => Except.ok (n, net')) hcount)
  · rw [List.mem_filter, mem_returns_iff, hasStop, decide_eq_true_eq, and_comm]

/-- A plain rule 0, a precedence rule 1 that calls itself, and a left-factored rule 2, which only
its own states may enter: the call out of state 6 gets no return edge. -/
def threeRules : Network where
  kind := .parser
  maxToken := 1
  states := #[
    { number := 0, rule := some 0, kind := .ruleStart (some 1) false false,
      edges := [.call ⟨2, 1, 0, 6, false, false⟩] },
    { number := 1, rule := some 0, kind := .ruleStop },
    { number := 2, rule := some 1, kind := .ruleStart (some 3) true false,
      edges := [.call ⟨2, 1, 3, 6, false, false⟩, .call ⟨2, 1, 0, 6, false, false⟩] },
    { number := 3, rule := some 1, kind := .ruleStop },
    { number := 4, rule := some 2, kind := .ruleStart (some 5) false true,
      edges := [.call ⟨4, 2, 0, 5, false, false⟩] },
    { number := 5, rule := some 2, kind := .ruleStop },
    { number := 6, rule := some 0, kind := .basic, edges := [.call ⟨4, 2, 0, 1, false, false⟩] }]
  ruleStarts := #[0, 2, 4]
  ruleStops := #[1, 3, 5]

/-- Rule 1 gets two edges to one state, with and without its mark, and rule 2 the one of its own
call. -/
theorem withReturnEdges_threeRules :
    (∀ r s : Nat, threeRules.ruleStops[r]? = some s → s < threeRules.states.size) ∧
    ∃ (new : List Return) (net' : Network), threeRules.withReturnEdges = .ok (new.length, net') ∧
    new.length = 3 ∧
      ⟨1, 6, some 1⟩ ∈ new ∧ ⟨1, 6, none⟩ ∈ new ∧ ⟨2, 5, none⟩ ∈ new ∧ new.Nodup ∧
      new.Pairwise threeRules.Earlier ∧ net'.ruleStops = threeRules.ruleStops := by
  have hstops : ∀ r s : Nat, threeRules.ruleStops[r]? = some s → s < threeRules.states.size := by
    intro r s hs
    exact (by decide : ∀ s ∈ threeRules.ruleStops, s < threeRules.states.size) s
      (Array.mem_of_getElem? hs)
  obtain ⟨new, net', hok, hmem, hnodup, horder, -, htables⟩ := withReturnEdges_exact hstops
  have hcount : threeRules.withReturnEdges.toOption.map Prod.fst = some 3 := by decide +kernel
  refine ⟨hstops, new, net', hok, ?_, (hmem _).2 ⟨by decide, (0, 0), ?_⟩,
    (hmem _).2 ⟨by decide, (2, 0), ?_⟩,
    (hmem _).2 ⟨by decide, (4, 0), ?_⟩, hnodup, horder, by rw [htables]⟩
  · rw [hok] at hcount
    exact Option.some.inj hcount
  · exact ⟨_, _, rfl, rfl, by decide, rfl, by decide, by decide⟩
  · exact ⟨_, _, rfl, rfl, by decide, rfl, by decide, by decide⟩
  · exact ⟨_, _, rfl, rfl, by decide, rfl, by decide, fun _ => ⟨2, rfl, by decide⟩⟩

end Network

end GrammarWalk
