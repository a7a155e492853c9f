import GrammarWalk.Proofs.Loop
import GrammarWalk.Proofs.Network.Passes
import GrammarWalk.Proofs.Network.Shrinks

/-! An optimization comes to an end, since each round that changes something makes the network
smaller; and what it ends with is a network that another optimization leaves as it is. -/

namespace GrammarWalk.Network

variable {net : Network} {a b c : Network} {i j : Nat} {r : Nat × Network}
  {R : Network → Network → Prop}

/-- Of `i` changes between `a` and `b`: none leaves the network as it is, some make it smaller. -/
def Progress (i : Nat) (a b : Network) : Prop := (i = 0 ∧ b = a) ∨ (0 < i ∧ Smaller b a)

theorem Progress.add (h : Progress i a b) (h' : Progress j b c) : Progress (i + j) a c := by
  obtain ⟨rfl, rfl⟩ | ⟨hi, hs⟩ := h <;> obtain ⟨rfl, rfl⟩ | ⟨hj, hs'⟩ := h'
  · exact .inl ⟨rfl, rfl⟩
  · exact .inr ⟨by omega, hs'⟩
  · exact .inr ⟨by omega, hs⟩
  · exact .inr ⟨by omega, hs'.trans hs⟩

theorem Counts.keeps {P : Network → Prop} (h : Counts R net r) (hnet : P net)
    (hstep : ∀ {a b : Network}, P a → R a b → P b) : P r.2 := by
  obtain ⟨-, heq⟩ | ⟨-, hchain⟩ := h
  · exact heq ▸ hnet
  · generalize r.2 = last at hchain
    induction hchain with
    | single hR => exact hstep hnet hR
    | tail _ hR ih => exact hstep ih hR

theorem Counts.progress (hR : ∀ {a b : Network}, R a b → ∃ free, Rewrite free a b)
    (h : Counts R net r) : Progress r.1 net r.2 := by
  obtain ⟨hzero, heq⟩ | ⟨hpos, hchain⟩ := h
  · exact .inl ⟨hzero, heq⟩
  · refine .inr ⟨hpos, ?_⟩
    generalize r.2 = last at hchain
    induction hchain with
    | single hstep =>
      obtain ⟨free, hstep⟩ := hR hstep
      exact hstep.smaller
    | tail _ hstep ih =>
      obtain ⟨free, hstep⟩ := hR hstep
      exact hstep.smaller.trans ih

/-- What the three passes of a round did, with the sole matches that were found before. -/
structure Round (net : Network) (sole : List (Option Edge))
    (inlined spliced merged : Nat × Network) : Prop where
  found : net.soleMatches = .ok sole
  inlines : Counts (Inlining sole) net inlined
  splices : Counts Splicing inlined.2 spliced
  merges : Counts (Rewrite fun _ _ => False) spliced.2 merged

theorem Round.keeps {sole : List (Option Edge)} {inlined spliced merged : Nat × Network}
    (h : net.Round sole inlined spliced merged) {P : Network → Prop} (hnet : P net)
    (hstep : ∀ {free : Call → Edge → Prop} {a b : Network}, P a → Rewrite free a b → P b) :
    P merged.2 :=
  h.merges.keeps (h.splices.keeps (h.inlines.keeps hnet fun ha hr => hstep ha hr.rewrite)
    fun ha hr => hstep ha hr.rewrite) hstep

theorem returns_optimizeOnce (h : net.Ready) :
    Returns net.optimizeOnce fun done =>
    ∃ sole inlined spliced merged, net.Round sole inlined spliced merged ∧
      done = ({ rounds := 1, inlined := inlined.1, spliced := spliced.1, merged := merged.1 },
      merged.2) := by
  obtain ⟨inlined, hi, sole, hfound, hinlines⟩ := returns_inlineCalls h
  have hinlined : inlined.2.Ready := hinlines.keeps h fun hr hstep => hstep.rewrite.ready hr
  obtain ⟨spliced, hs, hsplices⟩ := returns_spliceEpsilons hinlined
  have hspliced : spliced.2.Ready := hsplices.keeps hinlined fun hr hstep => hstep.rewrite.ready hr
  obtain ⟨merged, hm, hmerges⟩ := returns_mergeMatches hspliced
  refine ⟨_, ?_, sole, inlined, spliced, merged, ⟨hfound, hinlines, hsplices, hmerges⟩, rfl⟩
  rw [optimizeOnce, bind_eq_ok]
  exact ⟨_, hi, bind_eq_ok.2 ⟨_, hs, bind_eq_ok.2 ⟨_, hm, rfl⟩⟩⟩

theorem Round.progress {sole : List (Option Edge)} {inlined spliced merged : Nat × Network}
    (h : net.Round sole inlined spliced merged) :
    Progress (inlined.1 + spliced.1 + merged.1) net merged.2 :=
  ((h.inlines.progress fun h => ⟨_, h.rewrite⟩).add (h.splices.progress fun h =>
    ⟨_, h.rewrite⟩)).add
    (h.merges.progress fun h => ⟨_, h⟩)

theorem eq_of_total_eq_zero {changes : Changes} (h : changes.total = 0) :
    changes = { rounds := changes.rounds } := by
  obtain ⟨rounds, inlined, spliced, merged⟩ := changes
  have : inlined = 0 ∧ spliced = 0 ∧ merged = 0 := by
    simp only [Changes.total] at h
    omega
  obtain ⟨rfl, rfl, rfl⟩ := this
  rfl

theorem ensureOptimized_eq {st : State} (h : st.optimized.isSome = true) :
    st.ensureOptimized = st := by
  obtain ⟨l, hl⟩ := Option.isSome_iff_exists.1 h
  obtain ⟨number, rule, kind, edges, optimized⟩ := st
  subst hl
  rfl

theorem Ready.map_ensureOptimized (h : net.Ready) :
    { net with states := net.states.map State.ensureOptimized } = net := by
  have hstates : net.states.map State.ensureOptimized = net.states := by
    apply Array.ext (by simp)
    intro s hs hs'
    rw [Array.getElem_map]
    exact ensureOptimized_eq (h.optimized (Array.getElem?_eq_getElem hs'))
  rw [hstates]

theorem followed_ensureOptimized {st : State} : st.ensureOptimized.followed = st.followed := rfl

theorem ownerOf_ensureOptimized {s : Nat} :
    ownerOf { net with states := net.states.map State.ensureOptimized } s = net.ownerOf s := by
  rw [ownerOf, ownerOf, Array.getElem?_map]
  cases net.states[s]? <;> rfl

theorem ensureOptimized_getElem? {s : Nat} {st : State} (hs : net.states[s]? = some st) :
    (net.states.map State.ensureOptimized)[s]? = some st.ensureOptimized := by
  rw [Array.getElem?_map, hs, Option.map_some]

theorem exists_of_ensureOptimized {s : Nat} {st : State}
    (hs : (net.states.map State.ensureOptimized)[s]? = some st) :
    ∃ old, net.states[s]? = some old ∧ old.ensureOptimized = st := by
  rwa [Array.getElem?_map, Option.map_eq_some_iff] at hs

theorem size_ensureOptimized : (net.states.map State.ensureOptimized).size = net.states.size :=
  Array.size_map

theorem Wired.ensureOptimized (h : net.Wired) :
    Wired { net with states := net.states.map State.ensureOptimized } := by
  refine h.of_keeps ⟨fun hs => ⟨_, ensureOptimized_getElem? hs, rfl, rfl⟩⟩
    (fun hs => ?_) rfl rfl rfl rfl
  obtain ⟨old, hold, rfl⟩ := exists_of_ensureOptimized hs
  have hnumber := h.number hold
  have hwithin := h.within hold
  rw [size_ensureOptimized]
  exact ⟨hnumber, hwithin.edges, hwithin.followed⟩

theorem InRange.ensureOptimized (h : net.InRange) :
    ({ net with states := net.states.map State.ensureOptimized } : Network).Ready where
  toInRange := h.of_states (by simp) fun {s st} hs => by
    obtain ⟨old, hold, rfl⟩ := exists_of_ensureOptimized hs
    rw [size_ensureOptimized]
    have hnumber := h.number hold
    have hwithin := h.within hold
    exact ⟨hnumber, hwithin.edges, hwithin.followed⟩
  optimized {s st} hs := by
    obtain ⟨old, -, rfl⟩ := exists_of_ensureOptimized hs
    rfl

/-- The rounds of an optimization come to an end, with a network on which a round changes
nothing. -/
theorem optimize_returns (h : net.InRange) :
    Returns net.optimize fun r => r.2.Ready ∧ r.2.optimizeOnce = .ok ({ rounds := 1 }, r.2) := by
  have hloop : ∃ r, Loop.run optimizeRound
      ({}, { net with states := net.states.map State.ensureOptimized }) = some (.ok r) ∧
      r.2.Ready ∧ r.2.optimizeOnce = .ok ({ rounds := 1 }, r.2) := by
    refine Loop.run_of_wellFounded (InvImage.wf Prod.snd wellFounded_smaller)
      (I := fun a => a.2.Ready)
      (fun done hdone => ?_) h.ensureOptimized
    obtain ⟨⟨changes, net'⟩, hround, sole, inlined, spliced, merged, hpasses, heq⟩ :=
      returns_optimizeOnce hdone
    obtain ⟨rfl, rfl⟩ := Prod.mk.inj heq
    have hready : merged.2.Ready := hpasses.keeps hdone fun hr hstep => hstep.ready hr
    have hprogress := hpasses.progress
    refine ⟨_, _, bind_eq_ok.2 ⟨_, hround, rfl⟩, fun hlast => ?_, fun hlast => ?_⟩
    · obtain ⟨hzero, heq⟩ | ⟨hpos, -⟩ := hprogress
      · have hchanges : Changes.mk 1 inlined.1 spliced.1 merged.1 = { rounds := 1 } :=
          eq_of_total_eq_zero hzero
        rw [hchanges, ← heq] at hround
        rw [heq] at hround ⊢
        exact ⟨heq ▸ hdone, hround⟩
      · simp only [decide_eq_true_eq] at hlast
        exact absurd hlast (Nat.ne_of_gt hpos)
    · refine ⟨hready, hprogress.elim (fun hz => ?_) fun hs => hs.2⟩
      simp only [decide_eq_false_iff_not] at hlast
      exact absurd hz.1 hlast
  obtain ⟨r, hr, hP⟩ := hloop
  exact ⟨r, by rw [optimize, Loop.runOr, hr]; rfl, hP⟩

theorem optimize_of_rounds {P : Network → Prop} {changes : Changes}
    (hnet : P { net with states := net.states.map State.ensureOptimized })
    (hround : ∀ {a b : Network} {done : Changes}, P a → a.optimizeOnce = .ok (done, b) → P b)
    (hn : net.optimize = .ok (changes, c)) : P c := by
  have step {done done' : Changes × Network} {last : Bool} (h : P done.2)
      (hr : optimizeRound done = .ok (last, done')) : P done'.2 := by
    simp only [optimizeRound, bind_eq_ok, pure_eq_ok, Prod.exists, Prod.mk.injEq] at hr
    obtain ⟨changes, next, hnext, -, rfl⟩ := hr
    exact hround h hnext
  rw [optimize, Loop.runOr_eq_ok] at hn
  obtain ⟨done, hchain, hlast⟩ := hn
  have hdone : P done.2 := by
    clear hlast
    induction hchain with
    | refl => exact hnet
    | tail _ hagain ih => exact step ih hagain
  exact step hdone hlast

theorem optimize_of_rewrites {P : Network → Prop} (h : net.InRange) {changes : Changes}
    (hnet : P { net with states := net.states.map State.ensureOptimized })
    (hstep : ∀ {free : Call → Edge → Prop} {a b : Network}, P a → Rewrite free a b → P b)
    (hn : net.optimize = .ok (changes, c)) : P c := by
  refine (optimize_of_rounds (P := fun m => P m ∧ m.Ready) ⟨hnet, h.ensureOptimized⟩
    (fun {a b done} ha hround => ?_) hn).1
  obtain ⟨sole, inlined, spliced, merged, hpasses, heq⟩ :=
    (returns_optimizeOnce ha.2).of_eq_ok hround
  obtain ⟨-, rfl⟩ := Prod.mk.inj heq
  exact hpasses.keeps (P := fun m => P m ∧ m.Ready) ha fun hm hrewrite =>
    ⟨hstep hm.1 hrewrite, hrewrite.ready hm.2⟩

theorem SameRaw.optimize (h : net.InRange) {changes : Changes}
    (hn : net.optimize = .ok (changes, c)) : SameRaw net c :=
  optimize_of_rewrites h ⟨fun hs => ⟨_, (Array.getElem?_map ..).trans (congrArg (Option.map _) hs)⟩,
    rfl⟩
    SameRaw.rewrite hn

/-- An optimization of a network whose references are in range gives a result, and optimizing that
again takes one round, counts no change and leaves it as it is. -/
theorem optimize_idempotent (h : net.InRange) : ∃ changes net', net.optimize = .ok (changes, net') ∧
    net'.optimize = .ok ({ rounds := 1 }, net') := by
  obtain ⟨⟨changes, net'⟩, hopt, hready, hround⟩ := optimize_returns h
  refine ⟨changes, net', hopt, ?_⟩
  rw [optimize, hready.map_ensureOptimized, Loop.runOr_eq_ok]
  exact ⟨_, .refl, bind_eq_ok.2 ⟨_, hround, rfl⟩⟩

/-- A choice between two ways on in silence, one of them round a cycle: state 4 can be passed over,
and states 2 and 3 cannot. -/
def silentCycle : Network where
  kind := .parser
  maxToken := 1
  states := #[
    { number := 0, rule := some 0, kind := .ruleStart (some 1) false false,
      edges := [.plain 2, .plain 4] },
    { number := 1, rule := some 0, kind := .ruleStop },
    { number := 2, rule := some 0, kind := .basic, edges := [.plain 3] },
    { number := 3, rule := some 0, kind := .basic, edges := [.plain 2, .plain 1] },
    { number := 4, rule := some 0, kind := .basic, edges := [.plain 3, .plain 1] }]
  ruleStarts := #[0]
  ruleStops := #[1]

theorem optimize_silentCycle : silentCycle.InRange ∧ ∃ changes net',
    silentCycle.optimize = .ok (changes, net') ∧ net'.optimize = .ok ({ rounds := 1 }, net') :=
  ⟨by decide, optimize_idempotent (by decide)⟩

end GrammarWalk.Network
