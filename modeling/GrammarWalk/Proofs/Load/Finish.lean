import GrammarWalk.Proofs.Load.BypassRuns
import GrammarWalk.Proofs.Network.Fixpoint

/-! The last steps of a load, which optimize a network and judge its tail calls, leave its tables
and its raw edges as they are, but for the flags of the calls. So they keep the raw runs and what a
bypass has added. -/

namespace GrammarWalk.Network

variable {net net' : Network} {s t n bound : Nat} {st st' : State} {e e' : Edge} {lo hi : Int}
  {w : List Int}

/-- The edges lead the same way: they are the same, or calls of the same rule that go on in the same
state. -/
def SameWay (e e' : Edge) : Prop :=
  e' = e ∨ ∃ c c', e = .call c ∧ e' = .call c' ∧ c'.start = c.start ∧ c'.rule = c.rule ∧
    c'.follow = c.follow

theorem SameWay.symm (h : SameWay e e') : SameWay e' e := by
  obtain rfl | ⟨c, c', rfl, rfl, hstart, hrule, hfollow⟩ := h
  · exact .inl rfl
  · exact .inr ⟨c', c, rfl, rfl, hstart.symm, hrule.symm, hfollow.symm⟩

theorem SameWay.trans {e'' : Edge} (h : SameWay e e') (h' : SameWay e' e'') : SameWay e e'' := by
  obtain rfl | ⟨c, c', rfl, rfl, hstart, hrule, hfollow⟩ := h
  · exact h'
  · obtain rfl | ⟨d, d', heq, rfl, hstart', hrule', hfollow'⟩ := h'
    · exact .inr ⟨c, c', rfl, rfl, hstart, hrule, hfollow⟩
    · obtain rfl := Edge.call.inj heq
      exact .inr ⟨c, d', rfl, rfl, hstart'.trans hstart, hrule'.trans hrule, hfollow'.trans hfollow⟩

theorem Judged.sameWay (h : Judged e e') : SameWay e e' := by
  obtain rfl | ⟨c, tail, optimizedTail, rfl, rfl⟩ := h
  · exact .inl rfl
  · exact .inr ⟨c, _, rfl, rfl, rfl, rfl, rfl⟩

/-- Calls that lead the same way cost the same. -/
def CostsByWay (cost : Call → Nat) : Prop :=
  ∀ {c c' : Call}, c'.start = c.start → c'.rule = c.rule → c'.follow = c.follow → cost c' = cost c

/-- A run is carried to a network in which, up to `bound`, the states have edges that lead the same
ways. -/
theorem Run.carry {view view' : State → List Edge} {cost : Call → Nat}
    (h : net.Run view cost lo hi n s t w) (hs : s < bound) (hstops : net'.ruleStops = net.ruleStops)
    (hcost : CostsByWay cost)
    (hedges : ∀ {s : Nat} {st : State}, s < bound → net.states[s]? = some st →
      ∃ st', net'.states[s]? = some st' ∧ st'.isRuleStop = st.isRuleStop ∧
      ∀ e ∈ view st, e.Within bound ∧ ∃ e' ∈ view' st', SameWay e e') :
    net'.Run view' cost lo hi n s t w := by
  induction h with
  | stop hst hstop =>
    obtain ⟨st', hst', hsame, -⟩ := hedges hs hst
    exact .stop hst' (hsame.trans hstop)
  | silent hst hns he hsilent hcall _ ih =>
    obtain ⟨st', hst', hsame, hedges⟩ := hedges hs hst
    obtain ⟨hwithin, e', he', rfl | ⟨c, -, rfl, -⟩⟩ := hedges _ he
    · exact .silent hst' (hsame.trans hns) he' hsilent hcall (ih hwithin.1)
    · cases hcall
  | read hst hns he haccepts _ ih =>
    obtain ⟨st', hst', hsame, hedges⟩ := hedges hs hst
    obtain ⟨hwithin, e', he', rfl | ⟨c, -, rfl, -⟩⟩ := hedges _ he
    · exact .read hst' (hsame.trans hns) he' haccepts (ih hwithin.1)
    · cases haccepts
  | call hst hns he hz hm _ _ ihcall ih =>
    obtain ⟨st', hst', hsame, hedges⟩ := hedges hs hst
    obtain ⟨hwithin, e', he', hway⟩ := hedges _ he
    have ihcall := ihcall hwithin.1
    have ih := ih (hwithin.2 _ rfl)
    obtain rfl | ⟨c, c', heq, rfl, hstart, hrule, hfollow⟩ := hway
    · exact .call hst' (hsame.trans hns) he' (hstops ▸ hz) hm ihcall ih
    · obtain rfl := Edge.call.inj heq
      rw [← hcost hstart hrule hfollow] at hm
      rw [← hstart] at ihcall
      rw [← hfollow] at ih
      rw [← hrule, ← hstops] at hz
      exact .call hst' (hsame.trans hns) he' hz hm ihcall ih

/-- `net'` is `net` with perhaps more states and with other flags of tail calls. -/
structure Finished (net net' : Network) : Prop where
  old : ∀ {s : Nat} {st : State}, net.states[s]? = some st → ∃ st', net'.states[s]? = some st' ∧
    st'.kind = st.kind ∧ st'.rule = st.rule ∧ List.Forall₂ Judged st.edges st'.edges
  marks : SameMarks net net'
  tables : SameTables net net'

theorem SameRaw.finished {mid : Network} (h : SameRaw net mid) (hmarks : SameMarks net mid)
    (hn : mid.withTailCalls = .ok net') : Finished net net' := by
  refine ⟨fun hs => ?_, hmarks.trans (.withTailCalls hn),
    SameTables.trans h.tables (withTailCalls_eq_ok hn).1⟩
  obtain ⟨l, hmid⟩ := h.old hs
  obtain ⟨st', hst', hj⟩ := getElem?_withTailCalls hn hmid
  exact ⟨st', hst', by rw [hj.rest], by rw [hj.rest], hj.edges⟩

namespace Finished

variable (h : Finished net net')
include h

theorem ruleStarts_eq : net'.ruleStarts = net.ruleStarts := by rw [h.tables]

theorem ruleStops_eq : net'.ruleStops = net.ruleStops := by rw [h.tables]

theorem decisions_eq : net'.decisions = net.decisions := by rw [h.tables]

theorem maxToken_eq : net'.maxToken = net.maxToken := by rw [h.tables]

theorem run_iff {cost : Call → Nat} (hw : net.Wired) (hcost : CostsByWay cost)
    (hs : s < net.states.size) :
    net'.Run State.edges cost lo hi n s t w ↔ net.Run State.edges cost lo hi n s t w := by
  constructor
  · refine fun hrun => hrun.carry hs h.ruleStops_eq.symm hcost fun {s st'} hlt hst' => ?_
    obtain ⟨st, hst, hkind, -, hjudged⟩ := h.old (Array.getElem?_eq_getElem hlt)
    obtain rfl := Option.some.inj (hst'.symm.trans hst)
    refine ⟨_, Array.getElem?_eq_getElem hlt, by rw [State.isRuleStop, State.isRuleStop, hkind],
      fun e' he' => ?_⟩
    obtain ⟨e, he, hj⟩ := exists_of_forall₂_right hjudged he'
    exact ⟨hj.within ((hw.within (Array.getElem?_eq_getElem hlt)).edges e he), e, he,
      hj.sameWay.symm⟩
  · refine fun hrun => hrun.carry hs h.ruleStops_eq hcost fun {s st} _ hst => ?_
    obtain ⟨st', hst', hkind, -, hjudged⟩ := h.old hst
    refine ⟨st', hst', by rw [State.isRuleStop, State.isRuleStop, hkind], fun e he => ?_⟩
    obtain ⟨e', he', hj⟩ := exists_of_forall₂_left hjudged he
    exact ⟨(hw.within hst).edges e he, e', he', hj.sameWay⟩

theorem labels_iff (hw : net.Wired) (hs : s < net.states.size) :
    net'.Labels State.edges lo hi s t w ↔ net.Labels State.edges lo hi s t w :=
  h.run_iff hw (fun _ _ _ => rfl) hs

theorem mem_edges (hs : net.states[s]? = some st) (he : e ∈ st.edges) (hcall : e.call? = none) :
    ∃ st', net'.states[s]? = some st' ∧ st'.isRuleStop = st.isRuleStop ∧ e ∈ st'.edges := by
  obtain ⟨st', hst', hkind, -, hjudged⟩ := h.old hs
  obtain ⟨e', he', rfl | ⟨c, -, -, rfl, -⟩⟩ := exists_of_forall₂_left hjudged he
  · exact ⟨st', hst', by rw [State.isRuleStop, State.isRuleStop, hkind], he'⟩
  · cases hcall

theorem steps (hstep : net.Steps s t) : net'.Steps s t := by
  obtain ⟨st, hst, hns, he⟩ := hstep
  obtain ⟨st', hst', hsame, he'⟩ := h.mem_edges hst he rfl
  exact ⟨st', hst', hsame.trans hns, he'⟩

theorem readsPast {base r : Nat} {v : Int} (hr : net.ReadsPast base r s t v) :
    net'.ReadsPast base r s t v := by
  obtain ⟨taking, htaking, hns, he⟩ := hr.takes
  refine ⟨?_, h.steps hr.turns, ?_, ?_⟩
  · refine Relation.ReflTransGen.mono (fun _ _ hstep => ?_) _ _ hr.enters
    exact ⟨hstep.1, h.steps hstep.2⟩
  · obtain ⟨st', hst', hsame, he'⟩ := h.mem_edges htaking he rfl
    exact ⟨st', hst', hsame.trans hns, he'⟩
  · refine Relation.ReflTransGen.mono (fun _ _ hstep => ?_) _ _ hr.leaves
    exact ⟨hstep.1, h.steps hstep.2⟩

theorem exits {edges edges' : List Edge} (hedges : List.Forall₂ Judged edges edges')
    (hexits : net.Exits edges) : net'.Exits edges' := by
  obtain ⟨last, out, e, stop, hlast, hout, hend, hsilent, hhead, hstop, hexit⟩ := hexits
  obtain ⟨out', hout', hkind, -, hjudged⟩ := h.old hout
  obtain ⟨stop', hstop', hstopKind, -⟩ := h.old hstop
  have same {es es' : List Edge} {f : Edge} {i : Nat} (hes : List.Forall₂ Judged es es')
    (hf : es[i]? = some f) :
      ∃ f', es'[i]? = some f' ∧ f'.target = f.target := by
    obtain ⟨f', hf', hj⟩ := getElem?_of_forall₂ (R := fun a b => Judged b a) hes.flip hf
    exact ⟨f', hf', hj.target_eq⟩
  rw [List.getLast?_eq_getElem?, hedges.length_eq] at hlast
  rw [List.head?_eq_getElem?] at hhead
  obtain ⟨last', hlast', hto⟩ := same hedges hlast
  obtain ⟨e', hhead', hto'⟩ := same hjudged hhead
  refine ⟨last', out', e', stop', ?_, hto ▸ hout', hkind ▸ hend, ?_, ?_, hto' ▸ hstop', ?_⟩
  · rw [List.getLast?_eq_getElem?]
    exact hlast'
  · rwa [isSilent_of_forall₂ Judged.isSilent_eq hjudged]
  · rw [List.head?_eq_getElem?]
    exact hhead'
  · rwa [State.isRuleStop, hstopKind]

theorem spans {r : Nat} (hs : net.Spans r t) : net'.Spans r t := by
  cases hs with
  | rule hnot hstop => exact .rule (h.marks.isPrecedenceRule_eq ▸ hnot) (h.ruleStops_eq ▸ hstop)
  | before hprecedence hentry hrule hkind hexits =>
    obtain ⟨st', hst', hkind', hrule', hjudged⟩ := h.old hentry
    exact .before (h.marks.isPrecedenceRule_eq ▸ hprecedence) hst' (hrule'.trans hrule)
      (hkind'.trans hkind)
      (h.exits hjudged hexits)

end Finished

end GrammarWalk.Network

namespace GrammarWalk

theorem loadWords_finished {words : List Wire.Word} {options : LoadOptions} {net : Network}
    (hn : loadWords words options = .ok net) :
    ∃ decoded bypassed : Network, Wire.decode words = .ok decoded ∧
      ((¬ (options.bypass = true ∧ decoded.kind = .parser) ∧ bypassed = decoded) ∨
        (options.bypass = true ∧ decoded.kind = .parser) ∧ decoded.withBypasses = .ok bypassed) ∧
      Network.Finished bypassed net := by
  obtain ⟨decoded, bypassed, optimized, hdecode, hbypass, hopt, -, htails⟩ := loadWords_passes hn
  refine ⟨decoded, bypassed, hdecode, hbypass, ?_⟩
  obtain ⟨hd, hsize⟩ := bypassed_keeps hdecode (hbypass.imp And.right And.right)
  obtain ⟨-, rfl⟩ | ⟨-, changes, hopt⟩ := hopt
  · have raw : Network.SameRaw optimized optimized := ⟨fun {_ st} hs => ⟨st.optimized, hs⟩, rfl⟩
    exact raw.finished (.refl _) htails
  · have hrange := hd.toWired.inRange hsize.ge
    exact (Network.SameRaw.optimize hrange hopt).finished (.optimize hrange hopt) htails

end GrammarWalk
