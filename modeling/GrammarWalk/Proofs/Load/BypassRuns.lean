import GrammarWalk.Proofs.Load.Bypass
import GrammarWalk.Proofs.Network.SameRuns

/-! Runs through a network with a bypass. Every run of the network before is still there, and a run
that does not read the token of the bypass was there before, with the states of the bypass standing
for the ends of the part that it spans. -/

namespace GrammarWalk.Network

variable {net net' : Network} {rule start partEnd old new n s t : Nat} {token lo hi : Int}
  {st st' : State}
  {e e' : Edge} {w : List Int}

namespace Led

theorem accepts_eq (h : Led old new e e') {v : Int} : e'.accepts v lo hi = e.accepts v lo hi := by
  obtain rfl | ⟨-, rfl⟩ := h
  · rfl
  · exact accepts_retarget e new v lo hi

theorem call?_eq_none (h : Led old new e e') : e'.call? = none ↔ e.call? = none := by
  obtain rfl | ⟨-, rfl⟩ := h
  · rfl
  · cases e <;> simp [Edge.call?, Edge.retarget]

theorem of_call {c : Call} (h : Led old new (.call c) e') : ∃ c', e' = .call c' ∧ c'.rule = c.rule ∧
    c'.follow = c.follow := by
  obtain rfl | ⟨-, rfl⟩ := h
  · exact ⟨c, rfl, rfl, rfl⟩
  · exact ⟨{ c with start := new }, rfl, rfl, rfl⟩

theorem to_call {c : Call} (h : Led old new e (.call c)) : ∃ c', e = .call c' ∧ c'.rule = c.rule ∧
    c'.follow = c.follow := by
  obtain rfl | ⟨-, heq⟩ := h
  · exact ⟨c, rfl, rfl, rfl⟩
  · cases e with
    | call c' =>
      obtain rfl := Edge.call.inj heq
      exact ⟨c', rfl, rfl, rfl⟩
    | _ => cases heq

end Led

namespace Bypassed

variable (h : Bypassed rule start partEnd token net net')
include h

theorem ruleStops_eq : net'.ruleStops = net.ruleStops := by rw [h.rest]

/-- The part that is spanned ends in a state of the network that is not the rule's start. -/
theorem partEnd_lt (hd : net.Draft) : partEnd < net.states.size ∧ partEnd ≠ start := by
  obtain ⟨first, hfirst, hisStart⟩ := hd.start h.ruleStart
  have hne {st : State} (hst : net.states[partEnd]? = some st) (hnot : st.isRuleStart = false) :
      partEnd < net.states.size ∧ partEnd ≠ start := by
    refine ⟨lt_size hst, ?_⟩
    rintro rfl
    obtain rfl := Option.some.inj (hst.symm.trans hfirst)
    simp [hnot] at hisStart
  cases h.spans with
  | rule _ hstop =>
    obtain ⟨st, hst, hisStop, -⟩ := hd.stop hstop
    rw [State.isRuleStop, beq_iff_eq] at hisStop
    exact hne hst (by rw [State.isRuleStart, hisStop]; rfl)
  | before _ hst _ hkind _ => exact hne hst (by rw [State.isRuleStart, hkind]; rfl)

theorem kept (hs : net.states[s]? = some st) :
    ∃ st', net'.states[s]? = some st' ∧ st'.kind = st.kind ∧ st'.rule = st.rule := by
  by_cases hne : s = start
  · subst hne
    exact ⟨_, h.entered hs, rfl, rfl⟩
  · obtain ⟨edges, hs', -⟩ := h.old hs hne
    exact ⟨_, hs', rfl, rfl⟩

/-- An edge is still there, at its state or behind the block that has been put before the state's
edges. -/
theorem edge (hs : net.states[s]? = some st) (he : e ∈ st.edges) :
    ∃ s' st' e', net'.states[s']? = some st' ∧
    e' ∈ st'.edges ∧ Led partEnd (net.states.size + 1) e e' ∧
    (s' = s ∧ st'.isRuleStop = st.isRuleStop ∨ s = start ∧ s' = net.states.size ∧
    st'.isRuleStop = false) := by
  by_cases hne : s = start
  · subst hne
    obtain ⟨body, hled, hblock⟩ := h.block hs
    obtain ⟨e', he', hled⟩ := exists_of_forall₂_left hled he
    exact ⟨_, _, e', hblock, List.mem_append_left _ he', hled, .inr ⟨rfl, rfl, rfl⟩⟩
  · obtain ⟨edges, hs', hled⟩ := h.old hs hne
    obtain ⟨e', he', hled⟩ := exists_of_forall₂_left hled he
    exact ⟨s, _, e', hs', he', hled, .inl ⟨rfl, rfl⟩⟩

section forward

variable {cost : Call → Nat}

theorem run_of_stop (hrun : net'.Run State.edges cost lo hi n partEnd t w) :
    net'.Run State.edges cost lo hi n (net.states.size + 1) t w :=
  .silent h.stop rfl (List.mem_singleton.2 rfl) rfl rfl hrun

theorem run_of_led (hled : Led partEnd (net.states.size + 1) e e')
    (hrun : net'.Run State.edges cost lo hi n e.target t w) :
    net'.Run State.edges cost lo hi n e'.target t w := by
  obtain rfl | ⟨rfl, rfl⟩ := hled
  · exact hrun
  · rw [Edge.target_retarget]
    exact h.run_of_stop hrun

theorem step (hs : net.states[s]? = some st) (hns : st.isRuleStop = false) (he : e ∈ st.edges) :
    ∃ s' st' e', net'.states[s']? = some st' ∧ st'.isRuleStop = false ∧ e' ∈ st'.edges ∧
      Led partEnd (net.states.size + 1) e e' ∧
      ∀ {n t w}, net'.Run State.edges cost lo hi n s' t w →
      net'.Run State.edges cost lo hi n s t w := by
  obtain ⟨s', st', e', hs', he', hled, ⟨rfl, hsame⟩ | ⟨rfl, rfl, hblock⟩⟩ := h.edge hs he
  · exact ⟨s', st', e', hs', hsame.trans hns, he', hled, id⟩
  · exact ⟨_, st', e', hs', hblock, he', hled,
      fun hrun => .silent (h.entered hs) hns (List.mem_singleton.2 rfl) rfl rfl hrun⟩

theorem run (hrun : net.Run State.edges (fun _ => 0) lo hi n s t w) :
    net'.Run State.edges (fun _ => 0) lo hi n s t w := by
  induction hrun with
  | stop hs hstop =>
    obtain ⟨st', hs', hkind, -⟩ := h.kept hs
    exact .stop hs' (by rwa [State.isRuleStop, hkind])
  | silent hs hns he hsilent hcall _ ih =>
    obtain ⟨s', st', e', hs', hns', he', hled, back⟩ := h.step hs hns he
    exact back (.silent hs' hns' he' (hled.isSilent_eq.trans hsilent) (hled.call?_eq_none.2 hcall)
      (h.run_of_led hled ih))
  | read hs hns he haccepts _ ih =>
    obtain ⟨s', st', e', hs', hns', he', hled, back⟩ := h.step hs hns he
    exact back (.read hs' hns' he' (hled.accepts_eq.trans haccepts) (h.run_of_led hled ih))
  | call hs hns he hz hm _ _ ihcall ih =>
    obtain ⟨s', st', e', hs', hns', he', hled, back⟩ := h.step hs hns he
    obtain ⟨c', rfl, hrule, hfollow⟩ := hled.of_call
    rw [← hfollow] at ih
    rw [← hrule, ← h.ruleStops_eq] at hz
    exact back (.call hs' hns' he' hz hm (h.run_of_led hled ihcall) ih)

end forward

end Bypassed

/-- The state of the network before that a state stands for: the block of the bypass begins at the
start of the rule and ends at the end of the part that is spanned. -/
def Stands (net : Network) (start partEnd s x : Nat) : Prop :=
  s < net.states.size ∧ x = s ∨ s = net.states.size ∧ x = start ∨
    s = net.states.size + 1 ∧ x = partEnd

theorem Stands.same (h : s < net.states.size) : net.Stands start partEnd s s := .inl ⟨h, rfl⟩

theorem Stands.block : net.Stands start partEnd net.states.size start := .inr (.inl ⟨rfl, rfl⟩)

theorem Stands.stop : net.Stands start partEnd (net.states.size + 1) partEnd :=
  .inr (.inr ⟨rfl, rfl⟩)

theorem Stands.unique {x y : Nat} (hx : net.Stands start partEnd s x)
    (hy : net.Stands start partEnd s y) : x = y := by
  rw [Stands] at hx hy
  omega

theorem Led.stands {x : Nat} (hled : Led partEnd (net.states.size + 1) e e')
    (he : e.target < net.states.size) (hx : net.Stands start partEnd e'.target x) :
    x = e.target := by
  obtain rfl | ⟨rfl, rfl⟩ := hled
  · exact hx.unique (.same he)
  · rw [Edge.target_retarget] at hx
    exact hx.unique .stop

namespace Bypassed

variable (h : Bypassed rule start partEnd token net net')
include h

theorem place (hs : net'.states[s]? = some st') :
    s < net.states.size ∨ s = net.states.size ∨ s = net.states.size + 1 ∨
      s = net.states.size + 2 := by
  have hlt := lt_size hs
  have hsize := h.size
  omega

theorem cases (hd : net.Draft) (hs : net'.states[s]? = some st') :
    (∃ st, net.states[s]? = some st ∧ st'.kind = st.kind ∧ st'.rule = st.rule) ∨
      st'.kind.isLoopEnd = false ∧ st'.isRuleStop = false ∧ st'.kind.isStarLoopEntry = false := by
  obtain ⟨first, hfirst, -⟩ := hd.start h.ruleStart
  obtain hold | rfl | rfl | rfl := h.place hs
  · have hst := Array.getElem?_eq_getElem hold
    obtain ⟨st, hs', hkind, hrule⟩ := h.kept hst
    obtain rfl := Option.some.inj (hs.symm.trans hs')
    exact .inl ⟨_, hst, hkind, hrule⟩
  · obtain ⟨body, -, hblock⟩ := h.block hfirst
    obtain rfl := Option.some.inj (hs.symm.trans hblock)
    exact .inr ⟨rfl, rfl, rfl⟩
  · obtain rfl := Option.some.inj (hs.symm.trans h.stop)
    exact .inr ⟨rfl, rfl, rfl⟩
  · obtain rfl := Option.some.inj (hs.symm.trans h.taking)
    exact .inr ⟨rfl, rfl, rfl⟩

/-- What an edge of the network with the bypass was before: an edge between the states that its
ends stand for, a step into or out of the block, or a step of the way that the token of the
bypass takes. -/
theorem edge_cases (hd : net.Draft) (hs : net'.states[s]? = some st') (hns : st'.isRuleStop = false)
    (he : e' ∈ st'.edges) :
    (∃ x st e, net.Stands start partEnd s x ∧ net.states[x]? = some st ∧ st.isRuleStop = false ∧
      e ∈ st.edges ∧ Led partEnd (net.states.size + 1) e e') ∨
    (∃ x y, e' = .plain y ∧ net.Stands start partEnd s x ∧ net.Stands start partEnd y x) ∨
    e' = .plain (net.states.size + 2) ∨ ∃ y, e' = .atom y token := by
  obtain ⟨hlt, -⟩ := h.partEnd_lt hd
  obtain ⟨first, hfirst, hisStart⟩ := hd.start h.ruleStart
  obtain hold | rfl | rfl | rfl := h.place hs
  · by_cases hne : s = start
    · subst hne
      obtain rfl := Option.some.inj (hs.symm.trans (h.entered hfirst))
      obtain rfl := List.mem_singleton.1 he
      exact .inr (.inl ⟨_, _, rfl, .same hold, .block⟩)
    · obtain ⟨edges, hs', hled⟩ := h.old (Array.getElem?_eq_getElem hold) hne
      obtain rfl := Option.some.inj (hs.symm.trans hs')
      obtain ⟨e, he, hled⟩ := exists_of_forall₂_right hled he
      exact .inl ⟨s, _, e, .same hold, Array.getElem?_eq_getElem hold, hns, he, hled⟩
  · obtain ⟨body, hled, hblock⟩ := h.block hfirst
    obtain rfl := Option.some.inj (hs.symm.trans hblock)
    obtain he | he := List.mem_append.1 he
    · obtain ⟨e, he, hled⟩ := exists_of_forall₂_right hled he
      exact .inl ⟨start, first, e, .block, hfirst, isRuleStop_of_isRuleStart hisStart, he, hled⟩
    · exact .inr (.inr (.inl (List.mem_singleton.1 he)))
  · obtain rfl := Option.some.inj (hs.symm.trans h.stop)
    exact .inr (.inl ⟨_, _, List.mem_singleton.1 he, .stop, .same hlt⟩)
  · obtain rfl := Option.some.inj (hs.symm.trans h.taking)
    exact .inr (.inr (.inr ⟨_, List.mem_singleton.1 he⟩))

theorem run_before (hd : net.Draft) (hrun : net'.Run State.edges (fun _ => 0) lo hi n s t w)
    (hw : token ∉ w) :
    ∃ x, net.Stands start partEnd s x ∧ net.Run State.edges (fun _ => 0) lo hi n x t w := by
  have unreachable {x : Nat} : ¬ net.Stands start partEnd (net.states.size + 2) x := by
    rw [Stands]
    omega
  induction hrun with
  | stop hs hstop =>
    obtain ⟨st, hst, hkind, -⟩ | ⟨-, hnot, -⟩ := h.cases hd hs
    · rw [State.isRuleStop, hkind] at hstop
      exact ⟨_, .same (lt_size hst), .stop hst hstop⟩
    · simp [hnot] at hstop
  | silent hs hns he hsilent hcall _ ih =>
    obtain ⟨y, hy, hrun⟩ := ih hw
    obtain ⟨x, st, e, hx, hst, hns, he, hled⟩ | ⟨x, y', rfl, hx, hyx⟩ | rfl | ⟨y', rfl⟩ :=
      h.edge_cases hd hs hns he
    · rw [hled.stands ((hd.within hst).edges e he).1 hy] at hrun
      exact ⟨x, hx, .silent hst hns he (hled.isSilent_eq ▸ hsilent)
        (hled.call?_eq_none.1 hcall) hrun⟩
    · obtain rfl := hyx.unique hy
      exact ⟨x, hx, hrun⟩
    · exact (unreachable hy).elim
    · cases hsilent
  | read hs hns he haccepts _ ih =>
    obtain ⟨hne, hw⟩ := not_or.1 (mt List.mem_cons.2 hw)
    obtain ⟨y, hy, hrun⟩ := ih hw
    obtain ⟨x, st, e, hx, hst, hns, he, hled⟩ | ⟨x, y', rfl, -⟩ | rfl | ⟨y', rfl⟩ :=
      h.edge_cases hd hs hns he
    · rw [hled.stands ((hd.within hst).edges e he).1 hy] at hrun
      exact ⟨x, hx, .read hst hns he (hled.accepts_eq ▸ haccepts) hrun⟩
    · cases haccepts
    · cases haccepts
    · exact (hne (beq_iff_eq.1 haccepts)).elim
  | call hs hns he hz hm _ _ ihcall ih =>
    obtain ⟨hu, hw⟩ := not_or.1 (mt List.mem_append.2 hw)
    obtain ⟨z, hzs, hcall⟩ := ihcall hu
    obtain ⟨y, hy, hrun⟩ := ih hw
    obtain ⟨x, st, e, hx, hst, hns, he, hled⟩ | ⟨x, y', heq, -⟩ | heq | ⟨y', heq⟩ :=
      h.edge_cases hd hs hns he
    · obtain ⟨c, rfl, hrule, hfollow⟩ := hled.to_call
      obtain ⟨hstart, hlt⟩ := (hd.within hst).edges _ he
      rw [hled.stands hstart hzs] at hcall
      rw [← hfollow] at hy
      rw [hy.unique (.same (hlt c rfl))] at hrun
      rw [h.ruleStops_eq, ← hrule] at hz
      exact ⟨x, hx, .call hst hns he hz hm hcall hrun⟩
    · cases heq
    · cases heq
    · cases heq

theorem labels_iff (hd : net.Draft) (hs : s < net.states.size) (hw : token ∉ w) :
    net'.Labels State.edges lo hi s t w ↔ net.Labels State.edges lo hi s t w := by
  constructor
  · intro hrun
    obtain ⟨x, hx, hrun⟩ := h.run_before hd hrun hw
    rwa [hx.unique (.same hs)] at hrun
  · exact h.run

theorem exits_before (hd : net.Draft) (hst : net.states[s]? = some st)
    (hst' : net'.states[s]? = some st') (hnot : st.isRuleStart = false)
    (hexits : net'.Exits st'.edges) : net.Exits st.edges := by
  obtain ⟨first, hfirst, hisStart⟩ := hd.start h.ruleStart
  have led {s : Nat} {st st' : State} (hst : net.states[s]? = some st)
    (hnot : st.isRuleStart = false)
      (hst' : net'.states[s]? = some st') : st'.kind = st.kind ∧
        List.Forall₂ (Led partEnd (net.states.size + 1)) st.edges st'.edges := by
    obtain ⟨edges, hs', hled⟩ := h.old hst (by
      rintro rfl
      obtain rfl := Option.some.inj (hst.symm.trans hfirst)
      simp [hnot] at hisStart)
    obtain rfl := Option.some.inj (hst'.symm.trans hs')
    exact ⟨rfl, hled⟩
  refine hexits.of_led (led hst hnot hst').2 (fun st' hst' => ?_) fun {s st'} hst' hkind => ?_
  · obtain rfl := Option.some.inj (hst'.symm.trans h.stop)
    exact ⟨rfl, rfl⟩
  · obtain ⟨st, hst, hsame, -⟩ | ⟨hloop, hstop, -⟩ := h.cases hd hst'
    · have hnot : st.isRuleStart = false := by
        rw [State.isRuleStop, hsame] at hkind
        cases hk : st.kind <;> simp_all [StateKind.isLoopEnd, State.isRuleStart,
          StateKind.isRuleStart]
      exact ⟨st, hst, led hst hnot hst'⟩
    · simp [hloop, hstop] at hkind

theorem spans_before (hd : net.Draft) {r : Nat} (hs : net'.Spans r t) : net.Spans r t := by
  cases hs with
  | rule hnot hstop => exact .rule (h.marks.isPrecedenceRule_eq ▸ hnot) (h.ruleStops_eq ▸ hstop)
  | before hprecedence hentry hrule hkind hexits =>
    obtain ⟨st, hst, hsame, hsameRule⟩ | ⟨-, -, hnot⟩ := h.cases hd hentry
    · rw [hkind] at hsame
      refine .before (h.marks.isPrecedenceRule_eq ▸ hprecedence) hst
        (hsameRule ▸ hrule) hsame.symm ?_
      refine h.exits_before hd hst hentry ?_ hexits
      rw [State.isRuleStart, ← hsame]
      rfl
    · rw [hkind] at hnot
      cases hnot

end Bypassed

section past

variable {base k r : Nat} {v : Int}

/-- An edge without input and return leads from one state, which is no rule stop, to another. -/
def Steps (net : Network) (s t : Nat) : Prop :=
  ∃ st, net.states[s]? = some st ∧ st.isRuleStop = false ∧ .plain t ∈ st.edges

/-- Steps into the blocks of bypasses. Of the states from `base` on, each three are the block of a
bypass, the end of the block and the state that takes the token. -/
def Enters (net : Network) (base : Nat) : Nat → Nat → Prop :=
  Relation.ReflTransGen fun s t => (∃ r, t = base + 3 * r) ∧ net.Steps s t

def Leaves (net : Network) (base : Nat) : Nat → Nat → Prop :=
  Relation.ReflTransGen fun s t => (∃ r, s = base + 3 * r + 1) ∧ net.Steps s t

/-- The symbol leads from `s` to `t` through the bypass of the rule, and on the way are states of
bypasses only. -/
structure ReadsPast (net : Network) (base r s t : Nat) (v : Int) : Prop where
  enters : net.Enters base s (base + 3 * r)
  turns : net.Steps (base + 3 * r) (base + 3 * r + 2)
  takes : ∃ st, net.states[base + 3 * r + 2]? = some st ∧ st.isRuleStop = false ∧
    .atom (base + 3 * r + 1) v ∈ st.edges
  leaves : net.Leaves base (base + 3 * r + 1) t

section runs

variable {cost : Call → Nat}

theorem Steps.run (h : net.Steps s t) {u : Nat} (hrun : net.Run State.edges cost lo hi n t u w) :
    net.Run State.edges cost lo hi n s u w := by
  obtain ⟨st, hs, hns, he⟩ := h
  exact .silent hs hns he rfl rfl hrun

theorem Enters.run (h : net.Enters base s t) {u : Nat}
    (hrun : net.Run State.edges cost lo hi n t u w) : net.Run State.edges cost lo hi n s u w := by
  induction h using Relation.ReflTransGen.head_induction_on with
  | refl => exact hrun
  | head hstep _ ih => exact hstep.2.run ih

theorem Leaves.run (h : net.Leaves base s t) {u : Nat}
    (hrun : net.Run State.edges cost lo hi n t u w) : net.Run State.edges cost lo hi n s u w := by
  induction h using Relation.ReflTransGen.head_induction_on with
  | refl => exact hrun
  | head hstep _ ih => exact hstep.2.run ih

theorem ReadsPast.labels (h : net.ReadsPast base r s t v) (ht : net.states[t]? = some st)
    (hstop : st.isRuleStop = true) : net.Labels State.edges lo hi s t [v] := by
  obtain ⟨taking, htaking, hns, he⟩ := h.takes
  have hleaves : net.Labels State.edges lo hi (base + 3 * r + 1) t [] :=
    h.leaves.run (.stop ht hstop)
  have htakes : net.Labels State.edges lo hi (base + 3 * r + 2) t [v] :=
    .read htaking hns he (beq_self_eq_true v) hleaves
  exact h.enters.run (h.turns.run htakes)

end runs

namespace Bypassed

variable (h : Bypassed rule start partEnd token net net')
include h

theorem steps_entered (hd : net.Draft) : net'.Steps start net.states.size := by
  obtain ⟨first, hfirst, hisStart⟩ := hd.start h.ruleStart
  have hns := isRuleStop_of_isRuleStart hisStart
  exact ⟨_, h.entered hfirst, hns, List.mem_singleton.2 rfl⟩

theorem steps_stop : net'.Steps (net.states.size + 1) partEnd :=
  ⟨_, h.stop, rfl, List.mem_singleton.2 rfl⟩

theorem mem_edges (hend : partEnd < base) (hs : net.states[s]? = some st) (hne : s ≠ start)
    (he : e ∈ st.edges) (ht : base ≤ e.target) :
    ∃ st', net'.states[s]? = some st' ∧ st'.isRuleStop = st.isRuleStop ∧ e ∈ st'.edges := by
  obtain ⟨edges, hs', hled⟩ := h.old hs hne
  obtain ⟨e', he', rfl | ⟨rfl, -⟩⟩ := exists_of_forall₂_left hled he
  · exact ⟨_, hs', rfl, he'⟩
  · omega

theorem enters_of_steps (hd : net.Draft) (hsize : net.states.size = base + 3 * k)
    (hend : partEnd < base) (hstep : net.Steps s (base + 3 * r)) :
    net'.Enters base s (base + 3 * r) := by
  obtain ⟨st, hs, hns, he⟩ := hstep
  obtain ⟨s', st', e', hs', he', rfl | ⟨rfl, -⟩, hplace⟩ := h.edge hs he
  · obtain ⟨rfl, hsame⟩ | ⟨rfl, rfl, hblock⟩ := hplace
    · exact .single ⟨⟨r, rfl⟩, st', hs', hsame.trans hns, he'⟩
    · exact .head ⟨⟨k, hsize⟩, h.steps_entered hd⟩ (.single ⟨⟨r, rfl⟩, st', hs', hblock, he'⟩)
  · simp only [Edge.plain, Edge.target] at hend
    omega

theorem enters (hd : net.Draft) (hsize : net.states.size = base + 3 * k) (hend : partEnd < base)
    (henters : net.Enters base s t) : net'.Enters base s t := by
  induction henters with
  | refl => exact .refl
  | tail _ hstep ih =>
    obtain ⟨⟨r, rfl⟩, hstep⟩ := hstep
    exact ih.trans (h.enters_of_steps hd hsize hend hstep)

theorem leaves_of_steps (hsize : net.states.size = base + 3 * k) (hstart : start < base)
    (hstep : net.Steps (base + 3 * r + 1) t) : net'.Leaves base (base + 3 * r + 1) t := by
  obtain ⟨st, hs, hns, he⟩ := hstep
  obtain ⟨edges, hs', hled⟩ := h.old hs (by omega)
  obtain ⟨e', he', rfl | ⟨rfl, rfl⟩⟩ := exists_of_forall₂_left hled he
  · exact .single ⟨⟨r, rfl⟩, _, hs', hns, he'⟩
  · exact .head ⟨⟨r, rfl⟩, _, hs', hns, he'⟩ (.single ⟨⟨k, by rw [hsize]⟩, h.steps_stop⟩)

theorem leaves (hsize : net.states.size = base + 3 * k) (hstart : start < base)
    (hleaves : net.Leaves base s t) : net'.Leaves base s t := by
  induction hleaves with
  | refl => exact .refl
  | tail _ hstep ih =>
    obtain ⟨⟨r, rfl⟩, hstep⟩ := hstep
    exact ih.trans (h.leaves_of_steps hsize hstart hstep)

theorem readsPast (hd : net.Draft) (hsize : net.states.size = base + 3 * k) (hstart : start < base)
    (hend : partEnd < base) (hr : net.ReadsPast base r s t v) : net'.ReadsPast base r s t v := by
  obtain ⟨block, hblock, hblockStop, hturn⟩ := hr.turns
  obtain ⟨taking, htaking, htakingStop, htake⟩ := hr.takes
  refine ⟨h.enters hd hsize hend hr.enters, ?_, ?_, h.leaves hsize hstart hr.leaves⟩
  · obtain ⟨st, hst, hsame, he⟩ :=
      h.mem_edges hend hblock (by omega) hturn (show base ≤ base + 3 * r + 2 by omega)
    exact ⟨st, hst, hsame.trans hblockStop, he⟩
  · obtain ⟨st, hst, hsame, he⟩ :=
      h.mem_edges hend htaking (by omega) htake (show base ≤ base + 3 * r + 1 by omega)
    exact ⟨st, hst, hsame.trans htakingStop, he⟩

theorem readsPast_token (hd : net.Draft) (hsize : net.states.size = base + 3 * k) :
    net'.ReadsPast base k start partEnd token := by
  obtain ⟨first, hfirst, -⟩ := hd.start h.ruleStart
  obtain ⟨body, -, hblock⟩ := h.block hfirst
  have htaking := h.taking
  have hentered := h.steps_entered hd
  have hstop := h.steps_stop
  rw [hsize] at hblock htaking hentered hstop
  exact ⟨.single ⟨⟨k, rfl⟩, hentered⟩,
    ⟨_, hblock, rfl, List.mem_append_right _ (List.mem_singleton.2 rfl)⟩,
    ⟨_, htaking, rfl, List.mem_singleton.2 rfl⟩, .single ⟨⟨k, rfl⟩, hstop⟩⟩

end Bypassed

end past

end GrammarWalk.Network
