import GrammarWalk.Proofs.Load.Language
import GrammarWalk.Proofs.Load.Shown
import Mathlib.Order.Bounds.Basic

/-! Where rules start and stop. A load takes the last stop of each rule and links the rule's start
to it, so that a start which is listed for several rules keeps the link to the stop of the last one.
A second stop of a rule is passed over, and so is a start that belongs to another rule than the one
it is listed for. -/

namespace GrammarWalk

open Network Wire Reader

/-- What a kind says of the bounds of a rule. -/
inductive StateKind.Bound
  | start (stop : Option Nat)
  | stop
deriving DecidableEq, Repr

namespace StateKind

def bound? : StateKind → Option Bound
  | ruleStart stop _ _ => some (.start stop)
  | ruleStop => some .stop
  | _ => none

def Bound.link (stop : Nat) : Bound → Bound
  | .start _ => .start (some stop)
  | .stop => .stop

instance : Steady bound? where
  basic := rfl
  blockStart _ _ _ := rfl
  blockEnd _ := rfl
  starLoopEntry _ _ _ _ := rfl
  mapDecision k _ := by cases k <;> rfl

theorem bound?_eq_start {k : StateKind} {stop : Option Nat} :
    k.bound? = some (.start stop) ↔ ∃ p l, k = .ruleStart stop p l := by
  cases k <;> simp [bound?]

theorem bound?_eq_stop {k : StateKind} : k.bound? = some .stop ↔ k = .ruleStop := by
  cases k <;> simp [bound?]

end StateKind

open StateKind (Bound)

namespace Network

variable {net net' m : Network} {s t r start stop : Nat} {f : State → State}

/-- What state `s` says of the bounds of a rule, with the rule that it belongs to. -/
abbrev boundAt (net : Network) (s : Nat) : Option (Bound × Option Nat) :=
  net.shownAt StateKind.bound? s

/-- Every stop is of a rule. The stop of a rule is the last of its stops, and a start is linked to
the stop of the last rule that it is listed for. -/
structure Bounded (net : Network) : Prop where
  size : net.ruleStops.size = net.ruleStarts.size
  owned : ∀ s rule, net.boundAt s = some (.stop, rule) → ∃ r < net.ruleStarts.size, rule = some r
  last : ∀ r s : Nat, net.ruleStops[r]? = some s →
    IsGreatest {s | net.boundAt s = some (.stop, some r)} s
  linked : ∀ s stop rule, net.boundAt s = some (.start stop, rule) →
    (stop = none ∧ ∀ r : Nat, net.ruleStarts[r]? ≠ some s) ∨
      ∃ r : Nat, IsGreatest {r : Nat | net.ruleStarts[r]? = some s} r ∧ stop = net.ruleStops[r]?

theorem Bounded.of_shown (h : net.Bounded) (hsame : SameShown StateKind.bound? net net') :
    net'.Bounded := by
  obtain ⟨⟨hstarts, hstops⟩, hshown⟩ := hsame
  refine ⟨?_, ?_, ?_, ?_⟩
  · rw [hstops, hstarts]
    exact h.size
  · rw [hstarts]
    exact fun s rule hs => h.owned s rule ((hshown s).symm.trans hs)
  · simp only [hstops, boundAt, hshown]
    exact h.last
  · simp only [hstops, hstarts, boundAt, hshown]
    exact h.linked

def Unbounded (net : Network) : Prop :=
  ∀ s stop rule, net.boundAt s = some (.start stop, rule) → stop = none

theorem Unbounded.of_shown (h : net.Unbounded) (hshown : ∀ s, net'.boundAt s = net.boundAt s) :
    net'.Unbounded :=
  fun s stop rule hs => h s stop rule ((hshown s).symm.trans hs)

/-- The rules of `net` up to some of them have got their stops in `m`. -/
structure BoundedSoFar (net m : Network) : Prop where
  stops : ∀ s rule, m.boundAt s = some (.stop, rule) ↔ net.boundAt s = some (.stop, rule)
  last : ∀ r s : Nat, m.ruleStops[r]? = some s →
    IsGreatest {s | net.boundAt s = some (.stop, some r)} s
  linked : ∀ s stop rule, m.boundAt s = some (.start stop, rule) →
    (stop = none ∧ ∀ r < m.ruleStops.size, net.ruleStarts[r]? ≠ some s) ∨
      ∃ r : Nat, IsGreatest {r : Nat | r < m.ruleStops.size ∧ net.ruleStarts[r]? = some s} r ∧
      stop = m.ruleStops[r]?

theorem Unbounded.soFar (h : net.Unbounded) (hs : net.ruleStops = #[]) : BoundedSoFar net net where
  stops _ _ := Iff.rfl
  last r s hr := by simp [hs] at hr
  linked s stop rule hb := .inl ⟨h s stop rule hb, by simp [hs]⟩

theorem boundAt_link : (m.modify start fun st =>
      match st.kind with
      | .ruleStart _ p l => { st with kind := .ruleStart (some stop) p l }
      | _ => st).boundAt t =
    if start = t then (m.boundAt t).map (Prod.map (Bound.link stop) id) else m.boundAt t := by
  rw [boundAt, boundAt, shownAt, shownAt, getElem?_modify]
  split
  · cases m.states[t]? with
    | none => rfl
    | some st =>
      obtain ⟨number, rule, kind⟩ := st
      cases kind <;> rfl
  · rfl

theorem BoundedSoFar.link (h : BoundedSoFar net m)
    (hstart : net.ruleStarts[m.ruleStops.size]? = some start)
    (hstop : IsGreatest {s | m.boundAt s = some (.stop, some m.ruleStops.size)} stop) :
    BoundedSoFar net (Network.modify { m with ruleStops := m.ruleStops.push stop } start fun st =>
      match st.kind with
      | .ruleStart _ p l => { st with kind := .ruleStart (some stop) p l }
      | _ => st) := by
  have hbound (t : Nat) := @boundAt_link { m with ruleStops := m.ruleStops.push stop } t start stop
  refine ⟨fun s rule => ?_, fun r s hr => ?_, fun s link rule hs => ?_⟩
  · rw [hbound, ← h.stops]
    split
    · show (m.boundAt s).map _ = _ ↔ m.boundAt s = _
      rcases m.boundAt s with _ | ⟨_ | _, _⟩ <;> simp [Bound.link]
    · exact Iff.rfl
  · have hr : (m.ruleStops.push stop)[r]? = some s := hr
    rw [Array.getElem?_push] at hr
    split at hr
    · rename_i hsize
      obtain rfl := Option.some.inj hr
      simpa only [h.stops, hsize] using hstop
    · exact h.last r s hr
  · show (link = none ∧ ∀ r < (m.ruleStops.push stop).size, _) ∨
      ∃ r, IsGreatest {r | r < (m.ruleStops.push stop).size ∧ _} r ∧
      link = (m.ruleStops.push stop)[r]?
    rw [hbound] at hs
    rw [Array.size_push]
    split at hs
    · -- the start of this rule: there is no later one yet
      rename_i heq
      subst heq
      obtain ⟨⟨b, rule⟩, hb, hlink⟩ := Option.map_eq_some_iff.1 hs
      obtain ⟨hlink, -⟩ := Prod.mk.inj hlink
      cases b with
      | stop => cases hlink
      | start old =>
        obtain rfl := Bound.start.inj hlink
        refine .inr ⟨m.ruleStops.size,
          ⟨⟨Nat.lt_succ_self _, hstart⟩, fun r hr => Nat.le_of_lt_succ hr.1⟩, ?_⟩
        rw [Array.getElem?_push_size]
    · rename_i hne
      have hne : net.ruleStarts[m.ruleStops.size]? ≠ some s :=
        fun heq => hne (Option.some.inj (hstart.symm.trans heq))
      obtain ⟨rfl, hnone⟩ | ⟨r, ⟨⟨hlt, hr⟩, hgreatest⟩, hlink⟩ := h.linked s link rule hs
      · refine .inl ⟨rfl, fun r hr => ?_⟩
        rcases Nat.lt_succ_iff_lt_or_eq.1 hr with hlt | rfl
        · exact hnone r hlt
        · exact hne
      · refine .inr ⟨r, ⟨⟨Nat.lt_succ_of_lt hlt, hr⟩, fun q ⟨hq, hqs⟩ => ?_⟩, ?_⟩
        · rcases Nat.lt_succ_iff_lt_or_eq.1 hq with hlt | rfl
          · exact hgreatest ⟨hlt, hqs⟩
          · exact absurd hqs hne
        · rw [hlink, Array.getElem?_push, if_neg hlt.ne]

end Network

namespace Wire

variable {net net' : Network} {c c' : Cursor} {rule stop : Nat}

theorem isGreatest_stopOf (h : net.Draft) (hs : stopOf net rule = .ok stop) :
    IsGreatest {s | net.boundAt s = some (.stop, some rule)} stop := by
  rw [stopOf] at hs
  split at hs
  · rename_i st hfound
    obtain rfl := pure_eq_ok.1 hs
    obtain ⟨hp, later, earlier, hsplit, hlater⟩ := List.find?_eq_some_iff_append.1 hfound
    rw [Bool.and_eq_true, beq_iff_eq] at hp
    have hstates : net.states.toList = earlier.reverse ++ st :: later.reverse := by
      have := congrArg List.reverse hsplit
      simpa using this
    have hst : net.states[earlier.length]? = some st := by
      rw [← Array.getElem?_toList, hstates, List.getElem?_append_right (by simp)]
      simp
    rw [h.number hst]
    refine ⟨shownAt_eq_some.2 ⟨st, hst,
      StateKind.bound?_eq_stop.2 (by simpa [State.isRuleStop] using hp.1), hp.2⟩,
      fun t ht => ?_⟩
    obtain ⟨st', hst', hkind, hrule⟩ := shownAt_eq_some.1 ht
    -- a stop behind this one would have been found first
    by_contra hlt
    have hmem : st' ∈ later := by
      rw [← Array.getElem?_toList, hstates, List.getElem?_append_right (by simp; omega),
        List.length_reverse] at hst'
      obtain ⟨d, hd⟩ : ∃ d, t - earlier.length = d + 1 := ⟨t - earlier.length - 1, by omega⟩
      rw [hd, List.getElem?_cons_succ] at hst'
      exact List.mem_reverse.1 (List.mem_of_getElem? hst')
    have := hlater st' hmem
    simp [State.isRuleStop, StateKind.bound?_eq_stop.1 hkind, hrule] at this
  · exact absurd hs (by simp [throw_ne_ok])

theorem owned_of_linkStops (hn : linkStops net = .ok net') {s : Nat} {rule : Option Nat}
    (hs : net.boundAt s = some (.stop, rule)) : ∃ r < net.ruleStarts.size, rule = some r := by
  simp only [linkStops, bind_eq_ok, forM_eq_ok, liftM_defect_eq_ok] at hn
  obtain ⟨-, hcheck, -⟩ := hn
  obtain ⟨st, hst, hkind, rfl⟩ := shownAt_eq_some.1 hs
  have hchecked := hcheck st (Array.mem_toList_iff.2 (Array.mem_of_getElem? hst))
  have hstop : st.isRuleStop = true := by simp [State.isRuleStop, StateKind.bound?_eq_stop.1 hkind]
  rw [checkStop, if_pos hstop] at hchecked
  split at hchecked
  · exact absurd hchecked (by simp [throw_ne_ok])
  · rename_i r hrule
    split at hchecked
    · exact ⟨r, ‹_›, hrule⟩
    · exact absurd hchecked (by simp [throw_ne_ok])

theorem linkStops_bounded (h : net.Draft) (hs : net.ruleStops = #[]) (hfree : net.Unbounded)
    (hn : linkStops net = .ok net') : net'.Bounded := by
  obtain ⟨⟨-, hstarts, hsize⟩, hbounded⟩ :=
    linkStops_steps (P := BoundedSoFar net) h hs hn (hfree.soFar hs)
    fun m start stop hd hstarts hstart hstop hm => hm.link hstart (isGreatest_stopOf hd hstop)
  refine ⟨hsize.trans (congrArg _ hstarts.symm), fun s rule hs => ?_, fun r s hr => ?_,
    fun s stop rule hs => ?_⟩
  · rw [hstarts]
    exact owned_of_linkStops hn ((hbounded.stops s rule).1 hs)
  · simpa only [hbounded.stops] using hbounded.last r s hr
  · have hlt {r : Nat} (hr : net.ruleStarts[r]? = some s) : r < net'.ruleStops.size :=
      hsize ▸ (Array.getElem?_eq_some_iff.1 hr).1
    rw [hstarts]
    obtain ⟨rfl, hnone⟩ | ⟨r, ⟨⟨-, hr⟩, hgreatest⟩, hstop⟩ := hbounded.linked s stop rule hs
    · exact .inl ⟨rfl, fun r hr => hnone r (hlt hr) hr⟩
    · exact .inr ⟨r, ⟨hr, fun q hq => hgreatest ⟨hlt hq, hq⟩⟩, hstop⟩

theorem readStates_unbounded (hn : readStates net c = .ok (net', c')) : net'.Unbounded := by
  simp only [readStates, bind_reads, pure_reads] at hn
  obtain ⟨rows, -, -, -, -, -, -, -, -, rfl, -⟩ := hn
  intro s stop rule hs
  obtain ⟨st, hst, hkind, -⟩ := shownAt_eq_some.1 hs
  obtain ⟨⟨type, _, _⟩, -, rfl⟩ := Option.map_eq_some_iff.1 (Array.getElem?_mapIdx.symm.trans hst)
  cases type <;> cases hkind
  rfl

theorem readNonGreedy_unbounded (h : net.Unbounded) (hn : readNonGreedy net c = .ok (net', c')) :
    net'.Unbounded := by
  obtain ⟨s, rfl⟩ := readNonGreedy_eq_ok hn
  have same : SameShown StateKind.bound? net (net.modify s fun st =>
      { st with kind := st.kind.mapDecision fun d => { d with nonGreedy := true } }) :=
    .modify fun _ _ => ⟨rfl, StateKind.Steady.mapDecision ..⟩
  exact h.of_shown same.shown

theorem readPrecedenceRule_unbounded (h : net.Unbounded)
    (hn : readPrecedenceRule net c = .ok (net', c')) : net'.Unbounded := by
  obtain ⟨s, st, stop, p, leftFactored, hst, hk, rfl⟩ := readPrecedenceRule_eq_ok hn
  have same : SameShown StateKind.bound? net (net.modify s fun st =>
      { st with kind := .ruleStart stop true leftFactored }) := .modify fun st' hst' => by
    obtain rfl := Option.some.inj (hst.symm.trans hst')
    rw [hk]
    exact ⟨rfl, rfl⟩
  exact h.of_shown same.shown

theorem readRule_unbounded {version : Version} (h : net.Unbounded)
    (hn : readRule version net c = .ok (net', c')) : net'.Unbounded := by
  obtain ⟨s, tokens, -, rfl⟩ := readRule_eq_ok hn
  exact h

theorem decode_bounded {words : List Word} (hn : decode words = .ok net) : net.Bounded := by
  obtain ⟨s⟩ := decode_sections hn
  have d := s.drafts
  have states : s.states.Unbounded := by
    obtain ⟨_, _, _, _, h⟩ := s.readStates
    exact readStates_unbounded h
  have nonGreedy := s.readNonGreedy.keeps (fun _ _ _ _ => readNonGreedy_unbounded) states
  have precedence := s.readPrecedence.keeps (fun _ _ _ _ => readPrecedenceRule_unbounded) nonGreedy
  have rules := s.readRules.keeps (fun _ _ _ _ => readRule_unbounded) precedence
  have linked := linkStops_bounded d.rules.1 d.rules.2 rules s.linkStops
  exact linked.of_shown (s.shown fun _ _ _ => rfl)

end Wire

namespace Network

variable {net net' : Network}

def StartsLinked (net : Network) : Prop := ∀ s rule, net.boundAt s ≠ some (.start none, rule)

theorem StartsLinked.of_check (h : net.check = .ok ()) : net.StartsLinked := by
  rw [check, forM_eq_ok] at h
  intro s rule hs
  obtain ⟨st, hst, hkind, -⟩ := shownAt_eq_some.1 hs
  obtain ⟨p, l, hkind⟩ := StateKind.bound?_eq_start.1 hkind
  have hok := h st (Array.mem_toList_iff.2 (Array.mem_of_getElem? hst))
  rw [if_neg (by simp [hkind])] at hok
  simp [checkState, checkKind, hkind, bind_eq_ok, require_eq_ok] at hok

/-- Rule `r` has one start and one stop, the ones in the tables, and its start is linked to its
stop. -/
def OneEach (net : Network) (r : Nat) : Prop :=
  ∃ start stop, net.ruleStarts[r]? = some start ∧ net.ruleStops[r]? = some stop ∧
    (∀ s, net.boundAt s = some (.stop, some r) ↔ s = stop) ∧
    ∀ s link, net.boundAt s = some (.start link, some r) ↔ s = start ∧ link = some stop

theorem Bounded.start (h : net.Bounded) (hlinked : net.StartsLinked) {s : Nat}
    {link rule : Option Nat} (hs : net.boundAt s = some (.start link, rule)) :
    ∃ r, IsGreatest {r : Nat | net.ruleStarts[r]? = some s} r ∧
      ∃ stop, net.ruleStops[r]? = some stop ∧
      link = some stop := by
  obtain ⟨rfl, -⟩ | ⟨r, hr, rfl⟩ := h.linked s link rule hs
  · exact absurd hs (hlinked s rule)
  · have hlt : r < net.ruleStops.size := h.size ▸ (Array.getElem?_eq_some_iff.1 hr.1).1
    exact ⟨r, hr, _, Array.getElem?_eq_getElem hlt, Array.getElem?_eq_getElem hlt⟩

/-- Rules have one start and one stop each just when no rule has two stops, and each start in the
table belongs to the rule it is listed for. -/
theorem Bounded.oneEach_iff (h : net.Bounded) (hlinked : net.StartsLinked)
    (hlisted : ∀ r s : Nat, net.ruleStarts[r]? = some s →
      ∃ link rule, net.boundAt s = some (.start link, rule)) :
    (∀ r < net.ruleStarts.size, net.OneEach r) ↔
      (∀ r s t : Nat, net.boundAt s = some (.stop, some r) →
      net.boundAt t = some (.stop, some r) → s = t) ∧
        ∀ r s : Nat, ∀ link rule, net.ruleStarts[r]? = some s →
        net.boundAt s = some (.start link, rule) →
          rule = some r := by
  constructor
  · refine fun hone => ⟨fun r s t hs ht => ?_, fun r s link rule hr hs => ?_⟩
    · obtain ⟨q, hlt, hq⟩ := h.owned s _ hs
      obtain rfl := Option.some.inj hq
      obtain ⟨_, stop, -, -, hstop, -⟩ := hone r hlt
      exact ((hstop s).1 hs).trans ((hstop t).1 ht).symm
    · obtain ⟨start, stop, hr', -, -, hstart⟩ := hone r (Array.getElem?_eq_some_iff.1 hr).1
      obtain rfl := Option.some.inj (hr.symm.trans hr')
      have := hs.symm.trans ((hstart s (some stop)).2 ⟨rfl, rfl⟩)
      exact (Prod.mk.inj (Option.some.inj this)).2
  · rintro ⟨honce, hown⟩ r hlt
    have hr := Array.getElem?_eq_getElem hlt
    have hstop := Array.getElem?_eq_getElem (h.size ▸ hlt : r < net.ruleStops.size)
    refine ⟨_, _, hr, hstop, fun s => ⟨fun hs => ?_, ?_⟩, fun s link => ⟨fun hs => ?_, ?_⟩⟩
    · exact honce r _ _ hs (h.last r _ hstop).1
    · rintro rfl
      exact (h.last r _ hstop).1
    · obtain ⟨q, ⟨hq, -⟩, stop, hqstop, rfl⟩ := h.start hlinked hs
      obtain rfl : r = q := Option.some.inj (hown q s _ _ hq hs)
      exact ⟨Option.some.inj (hq.symm.trans hr),
        congrArg _ (Option.some.inj (hqstop.symm.trans hstop))⟩
    · rintro ⟨rfl, rfl⟩
      obtain ⟨link, rule, hs⟩ := hlisted r _ hr
      obtain rfl := hown r _ _ _ hr hs
      obtain ⟨q, ⟨hq, -⟩, stop, hqstop, rfl⟩ := h.start hlinked hs
      obtain rfl : r = q := Option.some.inj (hown q _ _ _ hq hs)
      rw [hs, Option.some.inj (hqstop.symm.trans hstop)]

end Network

/-- A load bounds its rules, and with its check it links every start. -/
theorem loadWords_bounded {words : List Word} {options : LoadOptions} {net : Network}
    (hn : loadWords words options = .ok net) :
    net.Bounded ∧ (options.verify = true → net.StartsLinked) := by
  obtain ⟨decoded, hdecode, same⟩ := loadWords_shown (g := StateKind.bound?) hn
  obtain ⟨_, _, optimized, -, -, -, hcheck, htails⟩ := loadWords_eq_ok hn
  refine ⟨(Wire.decode_bounded hdecode).of_shown same, fun hverify s rule hs => ?_⟩
  have htail : SameShown StateKind.bound? optimized net := .withTailCalls htails
  exact StartsLinked.of_check (hcheck hverify) s rule ((htail.shown s).symm.trans hs)

/-- What the check of a load leaves open: the rules have one start and one stop each just when no
rule has two stops, and each start in the table belongs to the rule it is listed for. -/
theorem loadWords_oneEach_iff {words : List Word} {options : LoadOptions} {net : Network}
    (hverify : options.verify = true) (hn : loadWords words options = .ok net) :
    (∀ r < net.ruleStarts.size, net.OneEach r) ↔
      (∀ r s t : Nat, net.boundAt s = some (.stop, some r) →
      net.boundAt t = some (.stop, some r) → s = t) ∧
        ∀ r s : Nat, ∀ link rule, net.ruleStarts[r]? = some s →
        net.boundAt s = some (.start link, rule) →
          rule = some r := by
  obtain ⟨hbounded, hlinked⟩ := loadWords_bounded hn
  refine hbounded.oneEach_iff (hlinked hverify) fun r s hr => ?_
  obtain ⟨st, hst, hstart⟩ := (loadWords_wired hn).1.start hr
  obtain ⟨number, rule, kind⟩ := st
  cases kind with
  | ruleStart link p l => exact ⟨link, rule, shownAt_eq_some.2 ⟨_, hst, rfl, rfl⟩⟩
  | _ => exact nomatch hstart

namespace Wire

/-- Two rules that have one start, the first with two stops, and a state of no rule. -/
def sharedStart : List Word :=
  parserWords [[2, 0], [7, 0], [7, 0], [7, 1], [1, 7]] [0, 0] [eps 0 1] []

/-- The check lets rules share their start, and a rule have two stops. The start is then linked to
the stop of the last rule, and the table names the last stop. -/
theorem loadWords_sharedStart :
    ∃ net, loadWords sharedStart { optimize := false } = .ok net ∧
    net.ruleStarts = #[0, 0] ∧ net.ruleStops = #[2, 3] ∧
    net.boundAt 0 = some (.start (some 3), some 0) ∧
    net.boundAt 1 = some (.stop, some 0) ∧ (net.states[4]?.map State.rule) = some (some 7) ∧
    ¬ net.OneEach 0 ∧ ¬ net.OneEach 1 := by
  have hload : loadWords sharedStart { optimize := false } = .ok (loaded sharedStart) :=
    loadWords_loaded (by decide +kernel)
  have hfirst : (loaded sharedStart).boundAt 1 = some (.stop, some 0) := by decide +kernel
  have hlast : (loaded sharedStart).boundAt 2 = some (.stop, some 0) := by decide +kernel
  have hstart : (loaded sharedStart).boundAt 0 = some (.start (some 3), some 0) := by decide +kernel
  have hstarts : (loaded sharedStart).ruleStarts = #[0, 0] := by decide +kernel
  refine ⟨_, hload, hstarts, by decide +kernel, hstart, hfirst, by decide +kernel, ?_, ?_⟩
  · rintro ⟨start, stop, -, -, hstop, -⟩
    exact absurd (((hstop 1).1 hfirst).trans ((hstop 2).1 hlast).symm) (by decide)
  · rintro ⟨start, stop, hlisted, -, -, hone⟩
    obtain rfl : 0 = start :=
      Option.some.inj ((by rw [hstarts]; rfl : _ = some 0).symm.trans hlisted)
    have := hstart.symm.trans ((hone 0 (some stop)).2 ⟨rfl, rfl⟩)
    simp at this

end Wire

end GrammarWalk
