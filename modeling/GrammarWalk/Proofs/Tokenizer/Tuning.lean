import GrammarWalk.Proofs.Load.Secluded
import GrammarWalk.Proofs.Tokenizer.Ends
import GrammarWalk.Proofs.Tokenizer.Exchange

/-! A lexer whose rules keep to themselves cuts texts in the same way before and after each rewrite
of an optimization: every rewrite exchanges the edges of one state, and what the exchange relies on
is still so behind it. -/

namespace GrammarWalk.Tokenizer

open Network Relation

variable {base a b : Network} {free : Call → Edge → Prop} {s i j n : Nat} {st : State}
  {es es' : List Edge}
  {stand stand' : Nat → Option Call} {e e' : Edge} {c : Call}

section exchange

theorem Exchanged.mono (h : Exchanged a s stand e e')
    (hstand : ∀ n c, stand n = some c → stand' n = some c) : Exchanged a s stand' e e' := by
  cases h with
  | keep => exact .keep
  | splice hs hf => exact .splice hs hf
  | inline hc => exact .inline (hstand _ _ hc)

theorem exists_stand (h : Replaced free a b s i j es es')
    (hone : ∀ {e mid}, a.Splices s e mid → ∃ hop, mid.followed = [hop])
    (hnodup : (es'.filter fun e => a.states.size ≤ e.target).Nodup) :
    ∃ stand, List.Forall₂ (Exchanged a s stand) es es' ∧ ∀ n c, stand n = some c →
      .call c ∈ es ∧ .plain n ∈ es' ∧ ∃ m, Inlines free a b c n m := by
  induction h with
  | nil => exact ⟨fun _ => none, .nil, nofun⟩
  | keep _ ih =>
    obtain ⟨stand, hedges, hstand⟩ := ih (hnodup.sublist ((List.sublist_cons_self ..).filter _))
    refine ⟨stand, .cons .keep hedges, fun n c hc => ?_⟩
    obtain ⟨hcall, hplain, hm⟩ := hstand n c hc
    exact ⟨List.mem_cons_of_mem _ hcall, List.mem_cons_of_mem _ hplain, hm⟩
  | @splice i j e mid es es' hs _ ih =>
    obtain ⟨hop, hf⟩ := hone hs
    rw [hf, List.map_singleton, List.singleton_append] at hnodup ⊢
    obtain ⟨stand, hedges, hstand⟩ := ih (hnodup.sublist ((List.sublist_cons_self ..).filter _))
    refine ⟨stand, .cons (.splice hs hf) hedges, fun n c hc => ?_⟩
    obtain ⟨hcall, hplain, hm⟩ := hstand n c hc
    exact ⟨List.mem_cons_of_mem _ hcall, List.mem_cons_of_mem _ hplain, hm⟩
  | @inline i j c fresh m es es' hi _ ih =>
    have hbeyond : decide (a.states.size ≤ (Edge.plain fresh).target) = true :=
      decide_eq_true hi.beyond
    rw [List.filter_cons, hbeyond, if_pos rfl, List.nodup_cons] at hnodup
    obtain ⟨stand, hedges, hstand⟩ := ih hnodup.2
    have hnew : ∀ n c', stand n = some c' → n ≠ fresh := by
      rintro n c' hc' rfl
      exact hnodup.1 (List.mem_filter.2 ⟨(hstand n c' hc').2.1, hbeyond⟩)
    have hlater {n : Nat} {c' : Call} (hc' : stand n = some c') :
        Function.update stand fresh (some c) n = some c' := by
      rw [Function.update_of_ne (hnew n c' hc'), hc']
    refine ⟨Function.update stand fresh (some c), .cons (.inline (Function.update_self ..))
      (hedges.imp fun _ _ h => h.mono fun _ _ => hlater), fun n c' hc' => ?_⟩
    by_cases heq : n = fresh
    · subst heq
      rw [Function.update_self] at hc'
      obtain rfl := Option.some.inj hc'
      exact ⟨List.mem_cons_self, List.mem_cons_self, m, hi⟩
    · rw [Function.update_of_ne heq] at hc'
      obtain ⟨hcall, hplain, hm⟩ := hstand n c' hc'
      exact ⟨List.mem_cons_of_mem _ hcall, List.mem_cons_of_mem _ hplain, hm⟩

end exchange

section actions

/-- The spot and its calls are at states of the network. -/
def Spotted (a : Network) (p : Spot) : Prop := p.1 < a.states.size ∧ ∀ y ∈ p.2, y < a.states.size

/-- A move without input is one or two that there were before the exchange, or leads to a new
state. -/
theorem Exchange.slips_of_slip (hx : Exchange a b s st es' stand) (hw : a.Wired) {p q : Spot}
    (hp : Spotted a p) (h : b.Slip State.followed Shallow p q) :
    a.Slips State.followed Shallow p q ∧ Spotted a q ∨ ∃ c, stand q.1 = some c := by
  cases h with
  | @back x y stack xst hst hstop =>
    obtain ⟨hlt, hstack⟩ := hp
    have hold := Array.getElem?_eq_getElem hlt
    obtain ⟨l, hl⟩ := hx.old hold
    obtain rfl := Option.some.inj (hst.symm.trans hl)
    exact .inl ⟨.single (.back hold hstop), List.forall_mem_cons.1 hstack⟩
  | @enter x stack xst c hst hns hc hroom =>
    have hold : ∃ old, a.states[x]? = some old ∧ old.isRuleStop = false ∧
        .call c ∈ old.followed := by
      obtain ⟨rfl, rfl⟩ | ⟨-, hold⟩ := hx.cases hst hp.1
      · obtain ⟨e, he, hexchanged⟩ := exists_of_forall₂_right hx.edges hc
        cases hexchanged with
        | keep => exact ⟨st, hx.state, hns, he⟩
      · exact ⟨xst, hold, hns, hc⟩
    obtain ⟨old, hold, hns, hc⟩ := hold
    have hlt := hw.call_lt hold hc
    exact .inl ⟨.single (.enter hold hns hc hroom), hlt.1, List.forall_mem_cons.2 ⟨hlt.2, hp.2⟩⟩
  | @silent x stack xst e' hst hns he' hsilent hcall =>
    have along {old : State} {e : Edge} (hold : a.states[x]? = some old)
      (hns : old.isRuleStop = false)
        (he : e ∈ old.followed) (hsilent : e.isSilent = true) (hcall : e.call? = none) :
        a.Slip State.followed Shallow (x, stack) (e.target, stack) ∧ Spotted a (e.target, stack) :=
      ⟨.silent hold hns he hsilent hcall, ((hw.within hold).followed e he).1, hp.2⟩
    obtain ⟨rfl, rfl⟩ | ⟨-, hold⟩ := hx.cases hst hp.1
    · obtain ⟨e, he, hexchanged⟩ := exists_of_forall₂_right hx.edges he'
      cases hexchanged with
      | keep =>
        obtain ⟨hslip, hspot⟩ := along hx.state hns he hsilent hcall
        exact .inl ⟨.single hslip, hspot⟩
      | @splice _ hop mid hs hf =>
        obtain ⟨hsil, hnone⟩ := Edge.isSilent_of_isPlain hs.plain
        obtain ⟨hslip, -⟩ := along hx.state hns he hsil hnone
        have hmem : hop ∈ mid.followed := by simp [hf]
        obtain ⟨hsil, hnone⟩ := Edge.isSilent_of_isPlain (hs.hops hop hmem)
        have hnext : a.Slip State.followed Shallow (e.target, stack) (hop.target, stack) :=
          .silent hs.state hs.not_stop hmem hsil hnone
        exact .inl ⟨.head hslip (.single hnext), ((hw.within hs.state).followed hop hmem).1, hp.2⟩
      | inline hc => exact .inr ⟨_, hc⟩
    · obtain ⟨hslip, hspot⟩ := along hold hns he' hsilent hcall
      exact .inl ⟨.single hslip, hspot⟩

/-- What can be reached without input could be reached before the exchange, or is a new state. -/
theorem Exchange.slips (hx : Exchange a b s st es' stand) (hw : a.Wired) {p q : Spot}
    (hp : Spotted a p) (h : b.Slips State.followed Shallow p q) :
    a.Slips State.followed Shallow p q ∧ Spotted a q ∨ ∃ c, stand q.1 = some c := by
  induction h with
  | refl => exact .inl ⟨.refl, hp⟩
  | @tail q q' _ hslip ih =>
    obtain ⟨hpath, hspot⟩ | ⟨c, hc⟩ := ih
    · exact (hx.slips_of_slip hw hspot hslip).imp_left fun ⟨hmore, hspot⟩ =>
        ⟨hpath.trans hmore, hspot⟩
    · -- a new state takes input
      obtain ⟨-, -, -, -, stop, m, r, hsole, -, hst⟩ := hx.stands hc
      have hloud : (m.retarget c.follow).isSilent = false :=
        (Edge.of_isLabelled ((isLabelled_retarget m _).trans hsole.labelled)).1
      cases hslip with
      | back hst' hstop =>
        obtain rfl := Option.some.inj (hst'.symm.trans hst)
        cases hstop
      | enter hst' _ hcall =>
        obtain rfl := Option.some.inj (hst'.symm.trans hst)
        rw [← List.mem_singleton.1 hcall] at hloud
        cases hloud
      | silent hst' _ he hsilent =>
        obtain rfl := Option.some.inj (hst'.symm.trans hst)
        rw [List.mem_singleton.1 he, hloud] at hsilent
        cases hsilent

/-- If no action was met again without input before the exchange, then none is afterwards. -/
theorem Exchange.actionsAdvance (hx : Exchange a b s st es' stand) (hw : a.Wired)
    (ha : a.ActionsAdvance) : b.ActionsAdvance := by
  intro x target rule xst index contextual hst hns hmem hpath
  by_cases hlt : x < a.states.size
  · obtain ⟨old, hold, hns, hmem⟩ : ∃ old, a.states[x]? = some old ∧ old.isRuleStop = false ∧
        .action target rule index contextual ∈ old.followed := by
      obtain ⟨rfl, rfl⟩ | ⟨-, hold⟩ := hx.cases hst hlt
      · obtain ⟨e, he, hexchanged⟩ := exists_of_forall₂_right hx.edges hmem
        cases hexchanged with
        | keep => exact ⟨st, hx.state, hns, he⟩
      · exact ⟨xst, hold, hns, hmem⟩
    obtain ⟨hpath, -⟩ | ⟨c, hc⟩ :=
      hx.slips hw ⟨((hw.within hold).followed _ hmem).1, List.forall_mem_nil _⟩ hpath
    · exact ha hold hns hmem hpath
    · exact absurd (hx.stands hc).2.beyond (Nat.not_le.2 hlt)
  · obtain ⟨m, r, rfl, hm, -⟩ := hx.new hst (Nat.not_lt.1 hlt)
    rw [← List.mem_singleton.1 hmem] at hm
    cases hm

end actions

section tuned

theorem tame_of_tuned (h : Tuned base a) : Tame a where
  wired := h.wired
  matchesRaw := FollowsRaw.matchesRaw h.followsRaw
  greedy hst _ hf := h.linear.greedy hst ((h.lengths hst).symm.trans (by rw [hf]; rfl))

theorem runs_of_tuned (h : Tuned base a) (ha : a.ActionsAdvance) : Runs a where
  wired := h.wired
  closes := closes_of_actionsAdvance h.wired ha
  single hst _ hloud := (h.lengths hst).trans_le (h.linear.loud hst hloud)

/-- A rewrite exchanges the edges of its state, if the calls that it inlines have sole matches and
new states differ. -/
theorem exists_exchange (h : Tuned base a) (hr : Rewrites a b s st es' free i j)
    (hsole : ∀ {c m}, .call c ∈ st.followed → free c m →
      ∃ stop, base.ruleStops[c.rule]? = some stop ∧ a.Sole stop c.start m)
    (hnodup : (es'.filter fun e => a.states.size ≤ e.target).Nodup) :
    ∃ stand, Exchange a b s st es' stand := by
  obtain ⟨stand, hedges, hstand⟩ := exists_stand hr.replaced (fun hs => h.exists_hop hs) hnodup
  refine ⟨stand, { toGrows := hr.toGrows, edges := hedges, stands := fun {n c} hc => ?_ }⟩
  obtain ⟨hcall, -, m, hi⟩ := hstand n c hc
  obtain ⟨stop, hstop, hm⟩ := hsole hcall hi.free
  obtain ⟨hstart, hfollow⟩ := h.wired.call_lt hr.state hcall
  obtain ⟨z, hz, hzstop, -⟩ := h.wired.stop (r := c.rule) (by rw [h.tables]; exact hstop)
  exact ⟨hcall, hi.beyond, hstart, hfollow, stop, m, _, hm, ⟨z, hz, hzstop⟩, hi.state⟩

end tuned

section passes

variable {plain : Network} {found : List (Option Edge)}

/-- `net` is the lexer `base` after some rewrites, and cuts texts as `plain` does. -/
structure Kept (base plain net : Network) : Prop extends Tuned base net where
  ready : net.Ready
  advance : net.ActionsAdvance
  cuts : CutsAlike plain net

theorem Kept.rewrites (h : Kept base plain a) (he : Secluded base)
    (hr : Rewrites a b s st es' free i j)
    (hsole : ∀ {c m}, .call c ∈ st.followed → free c m →
      ∃ stop, base.ruleStops[c.rule]? = some stop ∧ a.Sole stop c.start m)
    (hnodup : (es'.filter fun e => a.states.size ≤ e.target).Nodup) : Kept base plain b := by
  obtain ⟨stand, hx⟩ := exists_exchange h.toTuned hr hsole hnodup
  have htuned := h.toTuned.rewrites hr he
  have hadvance : b.ActionsAdvance := hx.actionsAdvance h.wired h.advance
  exact {
    toTuned := htuned
    ready := hr.rewrite.ready h.ready
    advance := hadvance
    cuts := h.cuts.trans <| (hx.agree (tame_of_tuned h.toTuned)).cutsAlike
      (runs_of_tuned h.toTuned h.advance)
      (runs_of_tuned htuned hadvance) }

theorem Kept.splicing (h : Kept base plain a) (he : Secluded base) (hs : Splicing a b) :
    Kept base plain b := by
  obtain ⟨g, hr, hpos, hns⟩ := hs
  refine h.rewrites he { toGrows := g, replaced := hr, pos := by omega, stop := fun hstop => ?_ }
    (fun _ hfree => hfree.elim) ?_
  · rw [hns] at hstop
    cases hstop
  · rw [List.filter_eq_nil_iff.2 fun e hmem => ?_]
    · exact List.nodup_nil
    · have hlt : e.target < a.states.size := by
        obtain hmem | ⟨_, -, mid, hmid, hop, hhop, rfl⟩ | ⟨_, _, _, -, hi, -⟩ := hr.mem_of hmem
        · exact ((h.wired.within g.state).followed e hmem).1
        · exact ((h.wired.within hmid.state).followed hop hhop).1
        · exact hi.free.elim
      simpa using hlt

theorem exists_call (h : Replaced free a b s i j es es') (hpos : 0 < i) : ∃ c, .call c ∈ es := by
  induction h with
  | nil => cases hpos
  | keep _ ih | splice _ _ ih => exact (ih hpos).imp fun _ => List.mem_cons_of_mem _
  | inline => exact ⟨_, List.mem_cons_self⟩

theorem Kept.inlining (h : Kept base plain a) (hb : base.Wired) (he : Secluded base)
    (hsoles : SolesIn base a found) (hi : Inlining found a b) :
    Kept base plain b ∧ SolesIn base b found := by
  obtain ⟨g, hr, hpos, hnodup⟩ := hi
  obtain ⟨c, hc⟩ := exists_call hr hpos
  refine ⟨h.rewrites he { toGrows := g, replaced := hr, pos := by omega, stop := fun _ => rfl }
    (fun {c m} hc hm => ?_) hnodup, fun hraw hcall hm => ?_⟩
  · obtain ⟨t, raw, hraw, hcall⟩ := h.calls g.state hc
    rw [InlinedBy, h.toSameRaw.inlineOf_eq ((hb.within hraw).edges _ hcall).1] at hm
    exact hsoles hraw hcall hm
  · obtain ⟨stop, hstop, hsole⟩ := hsoles hraw hcall hm
    exact ⟨stop, hstop, hsole.grows g hc⟩

theorem Kept.optimizeOnce (h : Kept base plain a) (hb : base.Wired) (he : Secluded base)
    (hret : Returning base) {changes : Changes} (hn : a.optimizeOnce = .ok (changes, b)) :
    Kept base plain b := by
  simp only [Network.optimizeOnce, bind_eq_ok, pure_eq_ok, Prod.exists, Prod.mk.injEq] at hn
  obtain ⟨i, inlined, hi, j, spliced, hj, k, merged, hk, -, rfl⟩ := hn
  obtain ⟨found, hfound, hinlines⟩ := (returns_inlineCalls h.ready).of_eq_ok hi
  have hinlined : Kept base plain inlined :=
    (hinlines.keeps (P := fun net => Kept base plain net ∧ SolesIn base net found)
      ⟨h, h.toTuned.solesIn hb he hret hfound⟩ fun h hi => h.1.inlining hb he h.2 hi).1
  have hspliced : Kept base plain spliced :=
    ((returns_spliceEpsilons hinlined.ready).of_eq_ok hj).keeps hinlined fun h hs =>
      h.splicing he hs
  rw [mergeMatches, hspliced.lexer] at hk
  obtain ⟨-, rfl⟩ := Prod.mk.inj (pure_eq_ok.1 hk)
  exact hspliced

end passes

end GrammarWalk.Tokenizer
