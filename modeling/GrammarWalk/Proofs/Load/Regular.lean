import GrammarWalk.Proofs.Load.Edges
import GrammarWalk.Proofs.Load.Stages
import GrammarWalk.Proofs.Network.Trim
import GrammarWalk.Proofs.Parse.Course

/-! The lists that a loaded network follows are regular if the network is trim, and then they have
the same runs as the raw lists. -/

namespace GrammarWalk

namespace Network

variable {base net net' opt decoded : Network} {n root s t : Nat} {st : State} {lo hi : Int}
  {w : List Int}

section finished

variable (h : Finished net net')
include h

theorem Finished.ownerOf_eq (hs : s < net.states.size) : net'.ownerOf s = net.ownerOf s := by
  have hst := Array.getElem?_eq_getElem hs
  obtain ⟨st', hst', -, hrule, -⟩ := h.old hst
  rw [Network.ownerOf_eq hst', Network.ownerOf_eq hst, hrule]

theorem Finished.onward_iff (hs : s < net.states.size) :
    net'.Onward State.edges s t ↔ net.Onward State.edges s t := by
  have hst := Array.getElem?_eq_getElem hs
  obtain ⟨st', hst', hkind, -, hjudged⟩ := h.old hst
  have hstop : st'.isRuleStop = net.states[s].isRuleStop := by
    rw [State.isRuleStop, State.isRuleStop, hkind]
  constructor
  · rintro ⟨st, hs', hns, e', he', rfl⟩
    obtain rfl := Option.some.inj (hst'.symm.trans hs')
    obtain ⟨e, he, hj⟩ := exists_of_forall₂_right hjudged he'
    exact ⟨_, hst, hstop ▸ hns, e, he, hj.onward_eq.symm⟩
  · rintro ⟨st, hs', hns, e, he, rfl⟩
    obtain rfl := Option.some.inj (hst.symm.trans hs')
    obtain ⟨e', he', hj⟩ := exists_of_forall₂_left hjudged he
    exact ⟨st', hst', hstop.trans hns, e', he', hj.onward_eq⟩

theorem Finished.leads_iff (hw : net.Wired) (hs : s < net.states.size) :
    net'.Leads State.edges s t ↔ net.Leads State.edges s t := by
  constructor
  · intro hl
    induction hl using Relation.ReflTransGen.head_induction_on with
    | refl => exact .refl
    | head hstep _ ih =>
      have hstep := (h.onward_iff hs).1 hstep
      obtain ⟨st, hst, -, e, he, rfl⟩ := id hstep
      exact .head hstep (ih (((hw.within hst).edges e he).onward_lt))
  · refine Relation.ReflTransGen.mono (fun u v hstep => ?_) _ _
    obtain ⟨st, hst, -⟩ := id hstep
    exact (h.onward_iff (lt_size hst)).2 hstep

end finished

section bypasses

theorem Steps.onward (h : net.Steps s t) : net.Onward State.edges s t := by
  obtain ⟨st, hs, hns, he⟩ := h
  exact ⟨st, hs, hns, _, he, rfl⟩

theorem ReadsPast.between {b r z : Nat} {v : Int} {i : Nat} (h : net.ReadsPast b r s z v)
    (hi : i < 3) :
    net.Leads State.edges s (b + 3 * r + i) ∧ net.Leads State.edges (b + 3 * r + i) z := by
  have henter : net.Leads State.edges s (b + 3 * r) :=
    Relation.ReflTransGen.mono (fun _ _ hstep => hstep.2.onward) _ _ h.enters
  have hleave : net.Leads State.edges (b + 3 * r + 1) z :=
    Relation.ReflTransGen.mono (fun _ _ hstep => hstep.2.onward) _ _ h.leaves
  have hturn := h.turns.onward
  have htake : net.Onward State.edges (b + 3 * r + 2) (b + 3 * r + 1) := by
    obtain ⟨st, hst, hns, he⟩ := h.takes
    exact ⟨st, hst, hns, _, he, rfl⟩
  match i, hi with
  | 0, _ => exact ⟨henter, .head hturn (.head htake hleave)⟩
  | 1, _ => exact ⟨(henter.tail hturn).tail htake, hleave⟩
  | 2, _ => exact ⟨henter.tail hturn, .head htake hleave⟩

theorem Trim.withBypasses (h : net.Trim decoded.states.size root) (hd : decoded.Draft)
    (hn : decoded.withBypasses = .ok base) (hf : Finished base net) :
    net.Trim base.states.size root := by
  have hext := extended_withBypasses hd hn
  refine h.extend fun s hge hlt => ?_
  obtain ⟨k, i, hi, rfl⟩ : ∃ k i, i < 3 ∧ s = decoded.states.size + 3 * k + i :=
    ⟨(s - decoded.states.size) / 3, (s - decoded.states.size) % 3,
      Nat.mod_lt _ (by omega), by omega⟩
  have hk : k < decoded.ruleCount := by
    have hsize := hext.size
    omega
  obtain ⟨start, z, hstart, hspans, hpast⟩ := hext.past k hk
  have hstarts : net.ruleStarts = decoded.ruleStarts := hf.ruleStarts_eq.trans hext.marks.starts
  have hplain : decoded.isPrecedenceRule k = false := by
    rw [← hext.marks.isPrecedenceRule_eq, ← hf.marks.isPrecedenceRule_eq]
    exact isPrecedenceRule_eq_false h.plain k
  obtain ⟨hfrom, hto⟩ := (hf.readsPast hpast).between hi
  refine ⟨k, start, z, hstarts ▸ hstart, ?_, hfrom, hto⟩
  rw [hf.ruleStops_eq, hext.tables]
  cases hspans with
  | rule _ hstop => exact hstop
  | before hprecedence =>
    rw [hplain] at hprecedence
    cases hprecedence

end bypasses

section draft

variable (h : Stages base opt net) (ho : net.Trim base.states.size root)
include h ho

theorem Stages.setApart (hreturns : net.StopsReturn) : base.SetApart where
  calls {s st c} hst hc := by
    obtain ⟨st', hst', -, -, hjudged⟩ := h.finished.old hst
    obtain ⟨e', he', hj⟩ := exists_of_forall₂_left hjudged hc
    rw [← h.finished.ruleStarts_eq]
    obtain rfl | ⟨k, _, _, heq, rfl⟩ := hj
    · exact (ho.call hst' he').2
    · obtain rfl := Edge.call.inj heq
      exact (ho.call hst' he').2
  inside {s st e} hst hns he := by
    have hon : base.Onward State.edges s e.onward := ⟨st, hst, hns, e, he, rfl⟩
    have hsame := ho.ownerOf_onward ((h.finished.onward_iff (lt_size hst)).2 hon)
    rw [h.finished.ownerOf_eq ((h.draft.within hst).edges e he).onward_lt,
      h.finished.ownerOf_eq (lt_size hst), ownerOf_eq hst] at hsame
    exact .inl hsame
  returns {s st e} hst hstop he := by
    obtain ⟨st', hst', hkind, -, hjudged⟩ := h.finished.old hst
    obtain ⟨e', he', hj⟩ := exists_of_forall₂_left hjudged he
    rw [State.isRuleStop, ← hkind, ← State.isRuleStop] at hstop
    obtain ⟨hepsilon, caller', hcaller', hns, f', hf', c', hc', hsame⟩ := hreturns hst' hstop he'
    obtain ⟨x, hx⟩ := Array.mem_iff_getElem?.1 (Array.mem_toList_iff.1 hcaller')
    obtain rfl := Edge.call?_eq_some.1 hc'
    -- what an optimization has added calls nothing
    obtain ⟨caller, f, hcaller, hkind', hf, hjf⟩ | ⟨hm, -⟩ := h.edge_cases hx hf'
    · obtain ⟨c, rfl⟩ : ∃ c, f = .call c := by
        obtain rfl | ⟨c, _, _, rfl, -⟩ := hjf <;> exact ⟨_, rfl⟩
      have hfollow : c'.follow = c.follow := hjf.onward_eq
      rw [hfollow, hj.target_eq, h.finished.ownerOf_eq ((h.draft.within hst).edges e he).1,
        h.finished.ownerOf_eq (((h.draft.within hcaller).edges _ hf).2 c rfl)] at hsame
      rw [State.isRuleStop, hkind'] at hns
      exact ⟨hj.isEpsilon_eq ▸ hepsilon, caller,
        Array.mem_toList_iff.2 (Array.mem_of_getElem? hcaller), hns, _, hf, c, rfl, hsame⟩
    · cases hm
  reached {s st r} hst hrule := by
    have hlt := lt_size hst
    obtain ⟨start, hstart, hfrom⟩ :=
      ho.reached hlt (by rw [h.finished.ownerOf_eq hlt, ownerOf_eq hst, hrule])
    rw [h.finished.ruleStarts_eq] at hstart
    obtain ⟨sst, hsst, -⟩ := h.draft.start hstart
    exact ⟨start, hstart, (h.finished.leads_iff h.draft.toWired (lt_size hsst)).1 hfrom⟩

theorem Stages.owned : ∀ st ∈ base.states.toList, st.rule ≠ none := by
  intro st hmem hnone
  obtain ⟨s, hs⟩ := Array.mem_iff_getElem?.1 (Array.mem_toList_iff.1 hmem)
  obtain ⟨st', hst', -, hrule, -⟩ := h.finished.old hs
  obtain ⟨r, hr, -⟩ := ho.owned hst'
  rw [hrule, hnone] at hr
  cases hr

theorem Stages.run_iff_of_trim (hreturns : opt = base ∨ net.StopsReturn) :
    net.Run State.edges net.charge lo hi n s t w ↔
    net.Run State.followed net.charge lo hi n s t w :=
  h.run_iff (hreturns.imp_right (h.setApart ho)) (h.owned ho)

/-- Behind a state of the draft with nothing but epsilon edges behind it, its rule ends without
input. -/
theorem Stages.ends_of_epsilonBehind (hreturns : opt = base ∨ net.StopsReturn) {n : Nat}
    (hs : s < base.states.size) (hquiet : net.EpsilonBehind s) :
    net.Ends State.followed net.charge n s [] := by
  obtain ⟨st', hst', -⟩ := h.finished.old (Array.getElem?_eq_getElem hs)
  obtain ⟨r, hrule, -⟩ := ho.owned hst'
  have howner : net.ownerOf s = some r := (ownerOf_eq hst').trans hrule
  obtain ⟨stop, hstop, hto⟩ := ho.ends hs howner
  obtain ⟨z, hz, hzstop, -⟩ := h.draft.stop (h.finished.ruleStops_eq ▸ hstop)
  obtain ⟨z', hz', hkind, -⟩ := h.finished.old hz
  have hzstop : z'.isRuleStop = true := by rwa [State.isRuleStop, hkind]
  exact ⟨r, stop, howner, hstop, (h.run_iff_of_trim ho hreturns).1 (hquiet.run hto hz' hzstop)⟩

end draft

/-- Both flags of a call say whether it is a tail call. -/
def TailsJudged (net : Network) : Prop :=
  ∀ {s : Nat} {st : State} {c : Call}, net.states[s]? = some st → .call c ∈ st.followed →
    (c.optimizedTail = true ↔ net.QuietAhead State.followed c.follow) ∧
      (c.optimizedTail = true → net.QuietAhead State.edges c.follow)

/-- The levels of the precedence edges are not below zero. -/
def LevelsNonneg (net : Network) : Prop :=
  net.Every fun e => ∀ t level, e = .precedence t level → 0 ≤ level

theorem Stages.regular (h : Stages base opt net) (ho : net.Trim base.states.size root)
    (hreturns : opt = base ∨ net.StopsReturn) (htails : net.TailsJudged)
    (hlevels : net.LevelsNonneg) : net.Regular root net.charge where
  stop {s st} hst hstop := by
    obtain ⟨r, hrule, -⟩ := ho.owned hst
    obtain hlt | hge := Nat.lt_or_ge s base.states.size
    · obtain ⟨z, hz, hto⟩ := ho.ends hlt ((ownerOf_eq hst).trans hrule)
      exact ⟨r, hrule, hto.eq_of_stop hst hstop ▸ hz⟩
    · rw [(h.added hst hge).1] at hstop
      cases hstop
  onward {s st e} hst hns he := by
    obtain hlt | hge := Nat.lt_or_ge s base.states.size
    · refine h.ownerOf_onward (fun {s t} hon => ?_) hlt ⟨st, hst, hns, e, he, rfl⟩
      obtain ⟨bst, hbst, -, f, hf, rfl⟩ := id hon
      have hsame := ho.ownerOf_onward ((h.finished.onward_iff (lt_size hbst)).2 hon)
      rwa [h.finished.ownerOf_eq ((h.draft.within hbst).edges f hf).onward_lt,
        h.finished.ownerOf_eq (lt_size hbst)] at hsame
    · obtain ⟨-, m, hedges, hfollowed, -⟩ := h.added hst hge
      have hmem : e ∈ st.edges := by rw [hedges, ← hfollowed]; exact he
      exact ho.ownerOf_onward ⟨st, hst, hns, e, hmem, rfl⟩
  call {s st c} hst hc := by
    obtain ⟨e, he, hway⟩ := h.raw_of_followed hst hc rfl
    obtain ⟨k, rfl, hstart, hrule⟩ : ∃ k, e = .call k ∧ c.start = k.start ∧ c.rule = k.rule := by
      obtain rfl | ⟨k, c', rfl, heq, hstart, hrule, -⟩ := hway
      · exact ⟨_, rfl, rfl, rfl⟩
      · obtain rfl := Edge.call.inj heq
        exact ⟨k, rfl, hstart, hrule⟩
    refine ⟨by rw [hstart, hrule]; exact ho.start (ho.call hst he).2,
      hrule ▸ ho.uncalled hst he, ?_⟩
    have hretains : net.Retains c := ⟨s, st, c, hst, hc, rfl, rfl, rfl⟩
    rw [charge, ← (htails hst hc).1]
    cases c.optimizedTail <;> simp [hretains]
  tail {s st c} hst hc htail := by
    obtain ⟨e, he, hway⟩ := h.raw_of_followed hst hc rfl
    have hlt : c.follow < base.states.size := by
      have honward : e.onward = c.follow := by
        obtain rfl | ⟨k, c', rfl, heq, -, -, hfollow⟩ := hway
        · rfl
        · obtain rfl := Edge.call.inj heq
          exact hfollow.symm
      exact honward ▸ (h.within hst he).onward_lt
    obtain ⟨hfollowed, hraw⟩ := htails hst hc
    exact ⟨hfollowed.1 htail,
      fun n => h.ends_of_epsilonBehind ho hreturns hlt (hraw htail).epsilonBehind⟩
  eof {s st e} hst he ha := by
    have hloud := Edge.isSilent_of_accepts ha
    have hraw : e ∈ st.edges := by
      obtain ⟨f, hf, rfl | ⟨k, c', -, rfl, -⟩⟩ :=
        h.raw_of_followed hst he (by cases e <;> first | rfl | cases hloud)
      · exact hf
      · cases hloud
    obtain ⟨hrule, hquiet⟩ := ho.eof hst hraw ha
    exact ⟨(ownerOf_eq hst).trans hrule,
      fun n => h.ends_of_epsilonBehind ho hreturns (h.within hst hraw).1 hquiet⟩
  level {s st t level} hst he := by
    obtain ⟨f, hf, rfl | ⟨k, c', -, heq, -⟩⟩ := h.raw_of_followed hst he rfl
    · exact hlevels.edges hst _ hf _ _ rfl
    · cases heq

end Network

open Network Wire Reader

theorem Wire.named_levels (sets : List SymbolSet) :
    Named (fun e => ∀ t level, e = .precedence t level → 0 ≤ level) sets where
  made {net kind target a b i c c' e} he := by
    rintro t level rfl
    cases kind <;> simp only [makeEdge, bind_reads, pure_reads] at he
    case precedence =>
      obtain ⟨heq, -⟩ := he
      obtain ⟨-, rfl⟩ := Edge.precedence.inj heq
      exact Int.natCast_nonneg a
    case call | set | notSet =>
      obtain ⟨_, _, -, heq, -⟩ := he
      cases heq
    all_goals
      obtain ⟨heq, -⟩ := he
      cases heq
  epsilon _ _ := nofun
  action _ _ _ _ := nofun

theorem loadWords_stages {words : List Word} {options : LoadOptions} {net : Network}
    (hload : loadWords words options = .ok net) :
    ∃ decoded base opt, Wire.decode words = .ok decoded ∧
      (base = decoded ∨ decoded.withBypasses = .ok base) ∧ (options.optimize = true ∨ opt = base) ∧
      Stages base opt net := by
  obtain ⟨decoded, base, opt, hdecode, hbypass, hopt, -, htails⟩ := loadWords_eq_ok hload
  obtain ⟨hd, hsize⟩ := bypassed_keeps hdecode hbypass
  exact ⟨decoded, base, opt, hdecode, hbypass, hopt.symm.imp And.left And.right, hd, hsize,
    hopt.imp And.right And.right, htails⟩

/-- If the network is trim in the states of the stream and, if it is optimized, only return edges
lead out of rule stops, then the lists that are followed are regular, and the same symbols lead
through a rule along the raw and along the followed lists, at the same cost. -/
theorem loadWords_regular {words : List Word} {options : LoadOptions} {decoded net : Network}
    {root : Nat} (hload : loadWords words options = .ok net)
    (hdecode : Wire.decode words = .ok decoded) (ho : net.Trim decoded.states.size root)
    (hreturns : options.optimize = true → net.StopsReturn) :
    net.Regular root net.charge ∧ net.LevelsNonneg ∧
      ∀ {lo hi : Int} {n s t : Nat} {w : List Int},
        net.Run State.edges net.charge lo hi n s t w ↔
        net.Run State.followed net.charge lo hi n s t w := by
  obtain ⟨_, base, opt, hdecode', hbypass, hopt, h⟩ := loadWords_stages hload
  have hreturns : opt = base ∨ net.StopsReturn := hopt.symm.imp_right hreturns
  obtain rfl := Except.ok.inj (hdecode.symm.trans hdecode')
  have hd := (decode_keeps hdecode).1
  have ho : net.Trim base.states.size root := by
    obtain rfl | hbypass := hbypass
    · exact ho
    · exact ho.withBypasses hd hbypass h.finished
  have hlevels : net.LevelsNonneg := by
    have hevery := decode_every hdecode fun sets _ => named_levels sets
    have hbase : base.LevelsNonneg := by
      obtain rfl | hbypass := hbypass
      · exact hevery
      · refine hevery.withBypasses hd (fun e t he t' level heq => ?_) (fun _ => nofun)
          (fun _ _ => nofun) hbypass
        cases e <;> cases heq
        exact he _ _ rfl
    refine ⟨fun {s st} hst e he t level heq => ?_⟩
    subst heq
    obtain ⟨old, e₀, hold, -, he₀, rfl | ⟨_, _, _, -, heq⟩⟩ | ⟨hm, -⟩ := h.edge_cases hst he
    · exact hbase.edges hold _ he₀ _ _ rfl
    · cases heq
    · cases hm
  have htails : net.TailsJudged := fun hst hc => by
    obtain ⟨opt, hagree, htails⟩ := loadWords_tailsAgree hload
    obtain ⟨e, hj⟩ := judgeTail_of_mem htails hst (.inr hc)
    obtain ⟨-, hoptimized⟩ := hagree.flags_of_judgeTail hj
    rw [quietAhead_withTailCalls_iff htails JudgedState.edges,
      quietAhead_withTailCalls_iff htails JudgedState.followed]
    exact ⟨hoptimized, fun htail => hagree.raw (hoptimized.1 htail)⟩
  exact ⟨h.regular ho hreturns htails hlevels, hlevels, h.run_iff_of_trim ho hreturns⟩

end GrammarWalk
