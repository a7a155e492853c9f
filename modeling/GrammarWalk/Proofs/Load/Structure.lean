import GrammarWalk.Proofs.Load.Language
import GrammarWalk.Proofs.Load.Links

/-! What holds of every network that a load gives, and what its check adds. -/

namespace GrammarWalk

namespace Network

variable {net net' : Network}

/-- A change that leaves the kinds of the states and the targets of their raw edges, and adds plain
states only, leaves links and numbers as they are. -/
theorem same_of_kinds
    (hold : ∀ {s : Nat} {st : State}, net.states[s]? = some st → ∃ st', net'.states[s]? = some st' ∧
      st'.kind = st.kind ∧ st'.edges.map Edge.target = st.edges.map Edge.target)
    (hnew : ∀ {s : Nat} {st' : State}, net'.states[s]? = some st' → net.states.size ≤ s →
      st'.kind = .basic) (hdecisions : net'.decisions = net.decisions) :
    SameLinks net net' ∧ SameNumbers net net' := by
  have links : SameLinks net net' := ⟨fun hs => by
    obtain ⟨st', hst', hk, hedges⟩ := hold hs
    exact ⟨st', hst', by rw [hk], fun _ => hedges⟩, hnew⟩
  refine ⟨links, hdecisions, fun s => ?_⟩
  cases hs : net.states[s]? with
  | some st =>
    obtain ⟨st', hst', hk, -⟩ := hold hs
    rw [linkAt_of_getElem? hs, linkAt_of_getElem? hst', hk]
  | none =>
    rw [linkAt, linkAt, hs, Option.bind_none, Option.bind_eq_none_iff]
    intro st' hst'
    obtain ⟨st, hst, -⟩ | ⟨-, hk⟩ := links.cases hst'
    · rw [hs] at hst
      cases hst
    · rw [hk]
      rfl

theorem Rewrite.links {free : Call → Edge → Prop} (h : Rewrite free net net') :
    SameLinks net net' ∧ SameNumbers net net' := by
  obtain ⟨s, st, es', g, -⟩ := h.grows
  refine same_of_kinds (fun hs => ?_) (fun hs hge => ?_) (by rw [g.tables])
  · obtain ⟨l, hl⟩ := g.old hs
    exact ⟨_, hl, rfl, rfl⟩
  · obtain ⟨m, r, rfl, -⟩ := g.new hs hge
    rfl

theorem optimize_links (hr : net.InRange) (hw : net.Wired) {changes : Changes}
    (hn : net.optimize = .ok (changes, net')) :
    net'.Wired ∧ SameLinks net net' ∧ SameNumbers net net' := by
  refine optimize_of_rewrites (P := fun m => m.Wired ∧ SameLinks net m ∧ SameNumbers net m) hr
    ⟨hw.ensureOptimized, ?_⟩
    (fun hm hstep => ⟨hstep.wired hm.1, hm.2.1.trans hstep.links.1, hm.2.2.trans hstep.links.2⟩) hn
  refine same_of_kinds (fun hs => ⟨_, ensureOptimized_getElem? hs, rfl, rfl⟩) (fun hs hge => ?_) rfl
  have hlt := size_ensureOptimized ▸ lt_size hs
  exact absurd hge (Nat.not_le.2 hlt)

theorem target_of_judged {es es' : List Edge} (h : List.Forall₂ Judged es es') :
    es'.map Edge.target = es.map Edge.target := by
  induction h with
  | nil => rfl
  | cons hj _ ih =>
    rw [List.map_cons, List.map_cons, ih]
    obtain rfl | ⟨c, tail, optimizedTail, rfl, rfl⟩ := hj <;> rfl

theorem withTailCalls_links (hn : net.withTailCalls = .ok net') :
    SameLinks net net' ∧ SameNumbers net net' := by
  refine same_of_kinds (fun hs => ?_) (fun hs hge => ?_) (by rw [(withTailCalls_eq_ok hn).1])
  · obtain ⟨st', hst', hj⟩ := getElem?_withTailCalls hn hs
    exact ⟨st', hst', by rw [hj.rest], target_of_judged hj.edges⟩
  · exact absurd (lt_size hs) (Nat.not_lt.2 (by rwa [size_withTailCalls hn]))

/-- What a check finds in each state whose link a load may leave unset. -/
structure Settled (net : Network) : Prop where
  blockEnd : ∀ {s : Nat} {st : State} {start}, net.states[s]? = some st →
    st.kind = .blockEnd start →
    start.isSome = true
  plus : ∀ {s : Nat} {st : State} {loopback stop d}, net.states[s]? = some st →
    st.kind = .blockStart (.plus loopback) stop d → loopback.isSome = true
  star : ∀ {s : Nat} {st : State} {d loopback p}, net.states[s]? = some st →
    st.kind = .starLoopEntry d loopback p → loopback.isSome = true
  back : ∀ {s : Nat} {st : State}, net.states[s]? = some st → st.kind = .starLoopBack →
    st.edges.length = 1

theorem Settled.of_check (h : net.check = .ok ()) : net.Settled := by
  rw [check, forM_eq_ok] at h
  have entry {s : Nat} {st : State} (hs : net.states[s]? = some st) (hk : st.kind ≠ .invalid) :
      net.checkKind st = .ok () := by
    have hst := h st (Array.mem_toList_iff.2 (Array.mem_of_getElem? hs))
    rw [if_neg hk] at hst
    simp only [checkState, bind_eq_ok] at hst
    obtain ⟨-, -, _, hkind, -⟩ := hst
    exact hkind
  refine ⟨fun {s st start} hs hk => ?_, fun {s st loopback stop d} hs hk => ?_,
    fun {s st d loopback p} hs hk => ?_, fun {s st} hs hk => ?_⟩
  all_goals
    have hkind := entry hs (by simp [hk])
    simp only [checkKind, hk, bind_eq_ok, require_eq_ok, beq_iff_eq] at hkind
  · exact hkind
  · exact hkind.choose_spec.1
  · exact hkind.choose_spec.1
  · exact hkind.choose_spec.1

theorem Settled.withTailCalls (h : net.Settled) (hn : net.withTailCalls = .ok net') :
    net'.Settled := by
  have back {s : Nat} {st' : State} (hs : net'.states[s]? = some st') :
      ∃ st, net.states[s]? = some st ∧
      st'.kind = st.kind ∧ st'.edges.length = st.edges.length := by
    obtain ⟨st, hst, hj⟩ := judged_of_getElem? hn hs
    exact ⟨st, hst, by rw [hj.rest], hj.edges.length_eq.symm⟩
  refine ⟨fun hs hk => ?_, fun hs hk => ?_, fun hs hk => ?_, fun hs hk => ?_⟩
  all_goals obtain ⟨st, hst, hkind, hlength⟩ := back hs
  · exact h.blockEnd hst (hkind ▸ hk)
  · exact h.plus hst (hkind ▸ hk)
  · exact h.star hst (hkind ▸ hk)
  · exact hlength ▸ h.back hst (hkind ▸ hk)

/--
What holds of every network that a load gives. Beyond its edges and tables, the links of its states
lead to states; the table of decisions and the numbers in the states are inverse; and each start of
a block names the block's end, which names it in turn and ends no other block.
-/
structure Sound (net : Network) : Prop extends Wired net where
  rules : net.ruleStops.size = net.ruleStarts.size
  link : ∀ {s : Nat} {st : State}, net.states[s]? = some st →
    ∀ t ∈ st.kind.links, t < net.states.size
  decided : ∀ {d s : Nat}, net.decisions[d]? = some s ↔
    ∃ st, net.states[s]? = some st ∧ st.decision? = some d
  block : ∀ {s : Nat} {st : State} {flavor stop d}, net.states[s]? = some st →
    st.kind = .blockStart flavor stop d →
    ∃ t e, stop = some t ∧ net.states[t]? = some e ∧ e.kind = .blockEnd (some s)
  apart : ∀ {s s' : Nat} {st st' : State} {t : Nat}, net.states[s]? = some st →
    net.states[s']? = some st' →
    st.kind.blockStop? = some t → st'.kind.blockStop? = some t → s = s'

/--
What the check adds: each end of a block names the block's start, and each start of a `+` loop and
entry of a `*` loop names the state that closes it, which is of the type for it and has an edge to
it.
-/
structure Closed (net : Network) : Prop where
  blockEnd : ∀ {t : Nat} {e : State} {start}, net.states[t]? = some e → e.kind = .blockEnd start →
    ∃ s st, start = some s ∧ net.states[s]? = some st ∧ st.kind.isBlockStart = true ∧
      st.kind.blockStop? = some t
  plus : ∀ {s : Nat} {st : State} {loopback stop d}, net.states[s]? = some st →
    st.kind = .blockStart (.plus loopback) stop d → ∃ l, loopback = some l ∧
    net.Closes .plusLoopBack l s
  star : ∀ {s : Nat} {st : State} {d loopback p}, net.states[s]? = some st →
    st.kind = .starLoopEntry d loopback p → ∃ l, loopback = some l ∧ net.Closes .starLoopBack l s

theorem Linked.sound (h : net.Linked) (hw : net.Wired) (hn : net.Numbered)
    (hrules : net.ruleStops.size = net.ruleStarts.size) : net.Sound where
  toWired := hw
  rules := hrules
  link := h.within
  decided {d s} := (hn d s).trans linkAt_eq_some
  block {s st flavor stop d} hs hk := by
    obtain ⟨t, ht⟩ : ∃ t, stop = some t := by
      have := h.ends hs (by rw [hk]; rfl)
      rw [hk] at this
      exact Option.isSome_iff_exists.1 this
    have hlink : net.linkAt StateKind.blockStart? t = some s := by
      rw [← h.block, linkAt_of_getElem? hs, hk, ← ht]
      rfl
    obtain ⟨e, he, hstart⟩ := linkAt_eq_some.1 hlink
    refine ⟨t, e, ht, he, ?_⟩
    generalize e.kind = k at hstart
    cases k <;> first | exact congrArg _ hstart | exact nomatch hstart
  apart {s s' st st' t} hs hs' hstop hstop' := by
    have h1 := h.block.1 ((linkAt_of_getElem? hs).trans hstop)
    have h2 := h.block.1 ((linkAt_of_getElem? hs').trans hstop')
    exact Option.some.inj (h1.symm.trans h2)

theorem Linked.closed (h : net.Linked) (hset : net.Settled) : net.Closed where
  blockEnd {t e start} he hk := by
    obtain ⟨s, rfl⟩ := Option.isSome_iff_exists.1 (hset.blockEnd he hk)
    have hlink : net.linkAt StateKind.blockStop? s = some t := by
      rw [h.block, linkAt_of_getElem? he, hk]
      rfl
    obtain ⟨st, hst, hstop⟩ := linkAt_eq_some.1 hlink
    refine ⟨s, st, rfl, hst, ?_, hstop⟩
    generalize st.kind = k at hstop
    cases k <;> first | rfl | exact nomatch hstop
  plus {s st loopback stop d} hs hk := by
    obtain ⟨l, rfl⟩ := Option.isSome_iff_exists.1 (hset.plus hs hk)
    exact ⟨l, rfl, h.plus (by rw [linkAt_of_getElem? hs, hk]; rfl)⟩
  star {s st d loopback p} hs hk := by
    obtain ⟨l, rfl⟩ := Option.isSome_iff_exists.1 (hset.star hs hk)
    obtain ⟨lst, hl, htype, hone⟩ := h.star (by rw [linkAt_of_getElem? hs, hk]; rfl)
    refine ⟨l, rfl, lst, hl, htype, ?_⟩
    -- a checked loopback has one edge, so it is the one that leads to the entry
    have hback : lst.kind = .starLoopBack := by
      generalize lst.kind = k at htype
      rcases k with _ | _ | _ | _ | ⟨_ | _ | _⟩ | _ | _ | _ | _ | _ | _ <;>
        first | rfl | exact nomatch htype
    obtain ⟨e, he⟩ := List.length_eq_one_iff.1 (hset.back hl hback)
    rw [he] at hone ⊢
    rw [← hone e.target rfl]
    simp

end Network

theorem loadWords_wired {words : List Wire.Word} {options : LoadOptions} {net : Network}
    (hn : loadWords words options = .ok net) :
    net.Wired ∧ net.ruleStops.size = net.ruleStarts.size := by
  obtain ⟨decoded, bypassed, opt, hdecode, hbypass, hopt, -, htails⟩ := loadWords_eq_ok hn
  obtain ⟨hd, hsize⟩ := bypassed_keeps hdecode hbypass
  have hopt : opt.Wired ∧ opt.ruleStops.size = opt.ruleStarts.size := by
    obtain ⟨-, rfl⟩ | ⟨-, changes, ho⟩ := hopt
    · exact ⟨hd.toWired, hsize⟩
    · have hr := hd.toWired.inRange hsize.ge
      refine ⟨(Network.optimize_links hr hd.toWired ho).1, ?_⟩
      rw [(Network.SameRaw.optimize hr ho).tables]
      exact hsize
  refine ⟨hopt.1.withTailCalls htails, ?_⟩
  rw [(Network.withTailCalls_eq_ok htails).1]
  exact hopt.2

/-- A load gives a sound network, and with its check a closed one. -/
theorem loadWords_sound {words : List Wire.Word} {options : LoadOptions} {net : Network}
    (hn : loadWords words options = .ok net) :
    net.Sound ∧ (options.verify = true → net.Closed) := by
  obtain ⟨decoded, bypassed, opt, hdecode, hbypass, hopt, hcheck, htails⟩ := loadWords_eq_ok hn
  obtain ⟨hd, hsize⟩ := bypassed_keeps hdecode hbypass
  have hlinks : bypassed.Linked ∧ bypassed.Numbered := by
    obtain rfl | hbypass := hbypass
    · exact Wire.decode_links hdecode
    · exact Network.withBypasses_links (Wire.decode_keeps hdecode).1
        (Wire.decode_links hdecode) hbypass
  have hopt : Network.SameLinks bypassed opt ∧ Network.SameNumbers bypassed opt := by
    obtain ⟨-, rfl⟩ | ⟨-, changes, ho⟩ := hopt
    · exact ⟨.refl _, .refl _⟩
    · exact (Network.optimize_links (hd.toWired.inRange hsize.ge) hd.toWired ho).2
  obtain ⟨links, numbers⟩ := hopt
  obtain ⟨hw, hrules⟩ := loadWords_wired hn
  obtain ⟨links', numbers'⟩ := Network.withTailCalls_links htails
  have hlinked := links'.linked (links.linked hlinks.1)
  refine ⟨hlinked.sound hw (numbers'.numbered (numbers.numbered hlinks.2)) hrules, fun hv => ?_⟩
  exact hlinked.closed ((Network.Settled.of_check (hcheck hv)).withTailCalls htails)

/-- A rule that matches the symbol 2 once or more and then the symbol 1 any number of times. -/
def twoLoops : List Wire.Word :=
  Wire.parserWords [[2, 0], [7, 0], [4, 0, 4], [1, 0], [8, 0], [11, 0], [12, 0, 5], [10, 0],
    [5, 0, 10], [1, 0], [8, 0], [9, 0], [12, 0, 11]] [0]
    [Wire.eps 0 2, Wire.eps 2 3, Wire.atom 3 4 2, Wire.eps 4 5, Wire.eps 5 2, Wire.eps 5 6,
      Wire.eps 6 7, Wire.eps 7 8, Wire.eps 7 12, Wire.eps 8 9, Wire.atom 9 10 1, Wire.eps 10 11,
      Wire.eps 11 7, Wire.eps 12 1] [2, 5, 7, 8]

theorem loadWords_sound_twoLoops :
    ∃ net, loadWords twoLoops { bypass := true, optimize := false } = .ok net ∧
    net.Sound ∧ net.Closed ∧ net.states.size = 16 := by
  obtain ⟨net, hnet, hsize⟩ :
      ∃ net, loadWords twoLoops { bypass := true, optimize := false } = .ok net ∧
      net.states.size = 16 := by
    have h : (loadWords twoLoops { bypass := true, optimize := false }).toOption.any
        (·.states.size == 16) = true := by decide +kernel
    cases hw : loadWords twoLoops { bypass := true, optimize := false } with
    | ok net =>
      rw [hw] at h
      exact ⟨net, rfl, by simpa [Except.toOption] using h⟩
    | error e =>
      rw [hw] at h
      cases h
  obtain ⟨hsound, hclosed⟩ := loadWords_sound hnet
  exact ⟨net, hnet, hsound, hclosed rfl, hsize⟩

end GrammarWalk
