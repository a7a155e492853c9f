import GrammarWalk.Proofs.Network.Fixpoint
import GrammarWalk.Proofs.Network.SoleMatch

/-! An optimization keeps the words of every state of a rule, if the rules are set apart: a rule is
entered at its start only, and left by return edges only. -/

namespace GrammarWalk.Network

variable {base net net' : Network} {s t r : Nat} {st : State} {cost : Call → Nat} {lo hi : Int}
  {w : List Int}

/-- An edge that leaves a state of a rule, but for a rule stop, goes on in the rule. From outside
the rules an edge that takes no input may enter a rule, at the rule's start. -/
def StaysInside (net : Network) : Prop :=
  ∀ {s : Nat} {st : State} {e : Edge}, net.states[s]? = some st → st.isRuleStop = false →
    e ∈ st.edges → net.ownerOf e.onward = st.rule ∨
      (st.rule = none ∧ e.isSilent = true ∧ e.call? = none ∧ e.target ∈ net.ruleStarts.toList)

/-- An edge out of a rule stop is a return edge: an epsilon edge to where a call goes on. -/
def StopsReturn (net : Network) : Prop :=
  ∀ {s : Nat} {st : State} {e : Edge}, net.states[s]? = some st → st.isRuleStop = true →
    e ∈ st.edges →
    e.isEpsilon = true ∧ ∃ caller ∈ net.states.toList, caller.isRuleStop = false ∧
      ∃ e' ∈ caller.edges, ∃ c ∈ e'.call?, net.ownerOf e.target = net.ownerOf c.follow

/-- The rules of the network are set apart: a rule is entered at its start, by calls and from
outside the rules, and left by returning to where a call goes on. -/
structure SetApart (net : Network) : Prop where
  calls : net.CallsEnterRules
  inside : net.StaysInside
  returns : net.StopsReturn
  reached : net.ReachedFromStarts

instance (net : Network) : Decidable net.CallsEnterRules :=
  decidable_of_iff (∀ st ∈ net.states.toList, ∀ e ∈ st.edges, ∀ c ∈ e.call?,
      net.ruleStarts[c.rule]? = some c.start) <| by
    refine forall_getElem?_iff.symm.trans ⟨fun h _ _ c hs hc => h hs _ hc c rfl, ?_⟩
    exact fun h _ _ hs e he c hc => h hs (Edge.call?_eq_some.1 hc ▸ he)

instance (net : Network) : Decidable net.StaysInside :=
  decidable_of_iff (∀ st ∈ net.states.toList, st.isRuleStop = false → ∀ e ∈ st.edges,
      net.ownerOf e.onward = st.rule ∨ (st.rule = none ∧ e.isSilent = true ∧ e.call? = none ∧
      e.target ∈ net.ruleStarts.toList)) <| by
    rw [← forall_getElem?_iff]
    exact ⟨fun h _ _ _ hs ht he => h hs ht _ he, fun h _ _ hs ht _ he => h hs ht he⟩

instance (net : Network) : Decidable net.StopsReturn :=
  decidable_of_iff (∀ st ∈ net.states.toList, st.isRuleStop = true → ∀ e ∈ st.edges,
      e.isEpsilon = true ∧ ∃ caller ∈ net.states.toList, caller.isRuleStop = false ∧
        ∃ e' ∈ caller.edges, ∃ c ∈ e'.call?, net.ownerOf e.target = net.ownerOf c.follow) <| by
    rw [← forall_getElem?_iff]
    exact ⟨fun h _ _ _ hs ht he => h hs ht _ he, fun h _ _ hs ht _ he => h hs ht he⟩

/-- Each state of a rule is the rule's start or comes in the table of states after one that leads to
it. -/
def ReachedInOrder (net : Network) : Prop :=
  ∀ s ∈ List.range net.states.size, ∀ st ∈ net.states[s]?, ∀ r ∈ st.rule,
    net.ruleStarts[r]? = some s ∨ ∃ p ∈ List.range s, ∃ pst ∈ net.states[p]?,
      pst.rule = some r ∧ pst.isRuleStop = false ∧ ∃ e ∈ pst.edges, e.onward = s

instance (net : Network) : Decidable net.ReachedInOrder := by
  unfold ReachedInOrder
  infer_instance

theorem ReachedInOrder.reached (h : net.ReachedInOrder) : net.ReachedFromStarts := by
  intro s
  induction s using Nat.strong_induction_on with
  | _ s ih =>
    intro st r hs hr
    rcases h s (List.mem_range.2 (lt_size hs)) st hs r hr with hstart | ⟨p, hp, pst, hpst, hrule,
      hns, e, he, rfl⟩
    · exact ⟨s, hstart, .refl⟩
    · obtain ⟨start, hstart, hlead⟩ := ih p (List.mem_range.1 hp) hpst hrule
      exact ⟨start, hstart, hlead.tail ⟨pst, hpst, hns, e, he, rfl⟩⟩

theorem Draft.getElem?_ensureOptimized (h : net.Draft) :
    (net.states.map State.ensureOptimized)[s]? =
      net.states[s]?.map fun st => { st with optimized := some st.edges } := by
  rw [Array.getElem?_map]
  cases hs : net.states[s]? with
  | none => rfl
  | some st => rw [Option.map_some, Option.map_some, State.ensureOptimized, h.followed_eq hs]

namespace Draft

variable (h : net.Draft)
include h

theorem getElem?_ensureOptimized_of (hs : net.states[s]? = some st) :
    (net.states.map State.ensureOptimized)[s]? = some { st with optimized := some st.edges } := by
  rw [h.getElem?_ensureOptimized, hs, Option.map_some]

theorem exists_of_ensureOptimized (hs : (net.states.map State.ensureOptimized)[s]? = some st) :
    ∃ old, net.states[s]? = some old ∧ { old with optimized := some old.edges } = st := by
  rwa [h.getElem?_ensureOptimized, Option.map_eq_some_iff] at hs

theorem sameRaw_ensureOptimized :
    SameRaw net { net with states := net.states.map State.ensureOptimized } where
  old hs := ⟨_, h.getElem?_ensureOptimized_of hs⟩
  tables := rfl

end Draft

namespace SetApart

variable (h : net.SetApart)
include h

theorem ownerOf_of_leads (hl : net.Leads State.edges s t) (hs : net.ownerOf s = some r) :
    net.ownerOf t = some r := by
  induction hl with
  | refl => exact hs
  | tail _ hstep ih =>
    obtain ⟨st, hst, hns, e, he, rfl⟩ := hstep
    rw [ownerOf_eq hst] at ih
    rcases h.inside hst hns he with hin | ⟨hnone, -⟩
    · rw [hin, ih]
    · rw [hnone] at ih
      cases ih

theorem rule_of_start (hw : net.Wired) (hsize : net.ruleStops.size = net.ruleStarts.size) {r' : Nat}
    (hr : net.ruleStarts[r]? = some s) (ho : net.ownerOf s = some r') : r' = r := by
  obtain ⟨hlt, -⟩ := Array.getElem?_eq_some_iff.1 hr
  have hstop := Array.getElem?_eq_getElem (hsize ▸ hlt)
  obtain ⟨sst, hsst, -, hrule⟩ := hw.stop hstop
  obtain ⟨start, hstart, hlead⟩ := h.reached hsst hrule
  obtain rfl := Option.some.inj (hr.symm.trans hstart)
  have := h.ownerOf_of_leads hlead ho
  rw [ownerOf_eq hsst, hrule] at this
  exact (Option.some.inj this).symm

theorem enters (hw : net.Wired) (hsize : net.ruleStops.size = net.ruleStarts.size) :
    EntersMuteAtStart net net State.edges := by
  intro r hmute s st e hs he ho
  cases hstop : st.isRuleStop with
  | true =>
    obtain ⟨hep, caller, hcaller, hns, e', he', c, hc, heq⟩ := h.returns hs hstop he
    obtain ⟨t, ht⟩ := Array.getElem?_of_mem (Array.mem_toList_iff.1 hcaller)
    obtain rfl := Edge.call?_eq_some.1 hc
    have hon : e.onward = e.target := by
      cases e <;> simp_all [Edge.isEpsilon, Edge.onward, Edge.target]
    rcases h.inside ht hns he' with hin | ⟨-, -, hnone, -⟩
    · have hrule : caller.rule = some r := by rw [← hin, ← ho, hon, heq]; rfl
      cases hmute ht hrule hns _ he'
    · cases hnone
  | false =>
    rcases h.inside hs hstop he with hin | ⟨-, hsil, hcall, hstart⟩
    · have hrule : st.rule = some r := hin.symm.trans ho
      have hq := hmute hs hrule hstop e he
      refine ⟨?_, ?_, .inl hrule⟩ <;> cases e <;>
        simp_all [Edge.matchesOrCalls, Edge.isSilent, Edge.call?]
    · rw [Edge.onward_of_call?_eq_none hcall] at ho
      obtain ⟨r', hr'⟩ := Array.getElem?_of_mem (Array.mem_toList_iff.1 hstart)
      obtain rfl := h.rule_of_start hw hsize hr' ho
      exact ⟨hsil, hcall, .inr hr'⟩

/-- A network whose rules are set apart extends itself when its raw lists become the followed
ones. -/
theorem extends_self (hd : net.Draft) (hsize : net.ruleStops.size = net.ruleStarts.size) :
    Extends net { net with states := net.states.map State.ensureOptimized } := by
  refine ⟨hd.sameRaw_ensureOptimized, hd.toWired.ensureOptimized, Array.size_map.ge,
    fun _ ho => ho.congr fun hs => ⟨_, hd.getElem?_ensureOptimized_of hs, rfl, rfl⟩,
    fun {s st c} hs hc => ?_, fun {s st} hs hstop e he => ?_, fun {r} hmute s st e hs he ho => ?_⟩
  · obtain ⟨old, hold, rfl⟩ := hd.exists_of_ensureOptimized hs
    exact ⟨s, old, hold, hc⟩
  · obtain ⟨old, hold, rfl⟩ := hd.exists_of_ensureOptimized hs
    have := (h.returns hold hstop he).1
    cases e <;> simp_all [Edge.isEpsilon, Edge.isSilent]
  · obtain ⟨old, hold, rfl⟩ := hd.exists_of_ensureOptimized hs
    have henters := h.enters hd.toWired hsize hmute hold he (ownerOf_ensureOptimized ▸ ho)
    exact henters

end SetApart

/-- `net` is `base` after some rewrites, and what its states follow accepts what `base` accepts, at
the same cost. -/
structure Faithful (cost : Call → Nat) (lo hi : Int) (base net : Network) :
    Prop extends Extends base net where
  ready : net.Ready
  runs : ∀ {n s t : Nat} {w : List Int}, s < base.states.size →
    (base.Run State.edges cost lo hi n s t w ↔ net.Run State.followed cost lo hi n s t w)

theorem Faithful.rewrite {free : Call → Edge → Prop} (h : Faithful cost lo hi base net)
    (hr : Rewrite free net net') (hfree : net.Inlinable cost lo hi free) :
    Faithful cost lo hi base net' where
  toExtends := h.toExtends.rewrite hr
  ready := hr.ready h.ready
  runs hs := (h.runs hs).trans (hr.run_iff h.wired h.stops hfree (Nat.lt_of_lt_of_le hs h.size))

theorem soleMatch_of_soleMatches {sole : List (Option Edge)} {m : Edge}
    (h : net.soleMatches = .ok sole) (hm : sole[r]? = some (some m)) :
    ∃ start, net.ruleStarts[r]? = some start ∧ net.soleMatch r start = .ok (some m) := by
  obtain ⟨⟨start, r'⟩, hstart, hfound⟩ := getElem?_of_forall₂ (mapM_eq_ok.1 h) hm
  rw [List.getElem?_zipIdx, Option.map_eq_some_iff] at hstart
  obtain ⟨start', hstart', heq⟩ := hstart
  obtain ⟨rfl, rfl⟩ := Prod.mk.inj heq
  rw [Nat.zero_add] at hfound
  exact ⟨start', by simpa using hstart', hfound⟩

section inlining

variable {sole : List (Option Edge)}

theorem SameRaw.inlineOf_eq (h : SameRaw base net) {c : Call} (hc : c.start < base.states.size) :
    net.inlineOf sole (.call c) = base.inlineOf sole (.call c) := by
  obtain ⟨l, hl⟩ := h.old (Array.getElem?_eq_getElem hc)
  simp only [inlineOf, hl, Array.getElem?_eq_getElem hc, Option.bind_eq_bind, Option.bind_some]

/-- While a pass inlines, each call that it may inline matches what was found for its rule. It has
to cost nothing. -/
theorem Faithful.inlinable (hset : base.SetApart) (hw : base.Wired)
    (hsize : base.ruleStops.size = base.ruleStarts.size) (h : Faithful cost lo hi base net)
    (hsole : net.soleMatches = .ok sole) (hcost : ∀ {c m}, base.InlinedBy sole c m → cost c = 0)
    (h' : Faithful cost lo hi base net') : net'.Inlinable cost lo hi (net'.InlinedBy sole) := by
  intro s st c m hs hc hm
  obtain ⟨s0, raw, hraw, hcraw⟩ := h'.calls hs hc
  have hbase : base.InlinedBy sole c m := by
    rwa [InlinedBy, ← h'.toSameRaw.inlineOf_eq ((hw.within hraw).edges _ hcraw).1]
  refine ⟨?_, hcost hbase⟩
  have hstart := hset.calls hraw hcraw
  obtain ⟨sst, hsst, -⟩ := hw.start hstart
  obtain ⟨l, hsst'⟩ := h'.old hsst
  obtain ⟨hlt, -⟩ := Array.getElem?_eq_some_iff.1 hstart
  obtain ⟨stop, hstop⟩ : ∃ stop, base.ruleStops[c.rule]? = some stop :=
    ⟨_, Array.getElem?_eq_getElem (hsize ▸ hlt)⟩
  have hrule : sst.rule.getD c.rule = c.rule := by
    cases ho : sst.rule with
    | none => rfl
    | some r => exact hset.rule_of_start hw hsize hstart ((ownerOf_eq hsst).trans ho)
  simp only [InlinedBy, inlineOf, hsst', hrule, Option.bind_eq_bind, Option.bind_some,
    Option.bind_eq_some_iff, Option.pure_def, Option.some.injEq, Prod.mk.injEq, true_and] at hm
  obtain ⟨found, hfound, _, rfl, rfl⟩ := hm
  rename_i m
  obtain ⟨start, hstart', hmatch⟩ := soleMatch_of_soleMatches hsole hfound
  rw [h.ruleStarts_eq, hstart] at hstart'
  obtain rfl := Option.some.inj hstart'
  have hfew := h.toExtends.sole hw hset.reached hstart hstop hmatch
  obtain ⟨zst, hzst, hzstop, -⟩ := hw.stop hstop
  obtain ⟨l', hz⟩ := h.old hzst
  refine ⟨stop, h'.ruleStops_eq ▸ hstop, fun {n w} => ?_⟩
  calc
    net'.Run State.followed cost lo hi n c.start stop w
      ↔ base.Run State.edges cost lo hi n c.start stop w := (h'.runs (lt_size hsst)).symm
    _ ↔ net.Run State.followed cost lo hi n c.start stop w := h.runs (lt_size hsst)
    _ ↔ ∃ v, w = [v] ∧ m.accepts v lo hi = true := hfew.run_iff ⟨_, hz, hzstop⟩

end inlining

/-- A round of an optimization keeps what the states follow faithful, if the calls that it inlines
cost nothing. -/
theorem Faithful.optimizeOnce (hset : base.SetApart) (hw : base.Wired)
    (hsize : base.ruleStops.size = base.ruleStarts.size) (h : Faithful cost lo hi base net)
    (hcost : ∀ {sole c m}, net.soleMatches = .ok sole → base.InlinedBy sole c m → cost c = 0)
    {changes : Changes} (hn : net.optimizeOnce = .ok (changes, net')) :
    Faithful cost lo hi base net' := by
  obtain ⟨sole, inlined, spliced, merged, hround, heq⟩ := (returns_optimizeOnce h.ready).of_eq_ok hn
  obtain ⟨-, rfl⟩ := Prod.mk.inj heq
  have plain {a : Network} : a.Inlinable cost lo hi fun _ _ => False := fun _ _ hfree => hfree.elim
  have hinlined : Faithful cost lo hi base inlined.2 := hround.inlines.keeps h fun h' hr =>
    h'.rewrite hr.rewrite (h.inlinable hset hw hsize hround.found (hcost hround.found) h')
  have hspliced : Faithful cost lo hi base spliced.2 :=
    hround.splices.keeps hinlined fun h' hr => h'.rewrite hr.rewrite plain
  exact hround.merges.keeps hspliced fun h' hr => h'.rewrite hr plain

theorem Extends.run_edges (h : Extends base net) (hw : base.Wired) {n : Nat}
    (hs : s < base.states.size) :
    base.Run State.edges cost lo hi n s t w ↔ net.Run State.edges cost lo hi n s t w := by
  have same {s : Nat} {st : State} (hst : net.states[s]? = some st) (hs : s < base.states.size) :
      ∃ old, base.states[s]? = some old ∧ old.isRuleStop = st.isRuleStop ∧
          old.edges = st.edges := by
    obtain ⟨l, hl⟩ := h.old (Array.getElem?_eq_getElem hs)
    obtain rfl := Option.some.inj (hst.symm.trans hl)
    exact ⟨_, Array.getElem?_eq_getElem hs, rfl, rfl⟩
  constructor
  · refine fun hrun => hrun.congr h.ruleStops_eq fun hst => ?_
    obtain ⟨l, hl⟩ := h.old hst
    exact ⟨_, hl, rfl, rfl⟩
  · intro hrun
    induction hrun with
    | stop hst hstop =>
      obtain ⟨old, hold, hkind, -⟩ := same hst hs
      exact .stop hold (hkind.trans hstop)
    | silent hst hns he hsil hc _ ih =>
      obtain ⟨old, hold, hkind, heq⟩ := same hst hs
      have he := heq ▸ he
      exact .silent hold (hkind.trans hns) he hsil hc (ih ((hw.within hold).edges _ he).1)
    | read hst hns he ha _ ih =>
      obtain ⟨old, hold, hkind, heq⟩ := same hst hs
      have he := heq ▸ he
      exact .read hold (hkind.trans hns) he ha (ih ((hw.within hold).edges _ he).1)
    | call hst hns he hz hk _ _ ihcall ih =>
      obtain ⟨old, hold, hkind, heq⟩ := same hst hs
      have he := heq ▸ he
      have hlt := (hw.within hold).edges _ he
      exact .call hold (hkind.trans hns) he (h.ruleStops_eq ▸ hz) hk (ihcall hlt.1)
        (ih (hlt.2 _ rfl))

theorem SetApart.faithful_self (hset : net.SetApart) (hd : net.Draft)
    (hsize : net.ruleStops.size = net.ruleStarts.size) :
    Faithful cost lo hi net { net with states := net.states.map State.ensureOptimized } where
  toExtends := hset.extends_self hd hsize
  ready := (hd.toWired.inRange hsize.ge).ensureOptimized
  runs _ := by
    refine ⟨fun hrun => hrun.congr rfl fun hs => ?_, fun hrun => hrun.congr rfl fun {s st} hs => ?_⟩
    · exact ⟨_, hd.getElem?_ensureOptimized_of hs, rfl, rfl⟩
    · obtain ⟨old, hold, rfl⟩ := hd.exists_of_ensureOptimized hs
      exact ⟨old, hold, rfl, rfl⟩

end GrammarWalk.Network
