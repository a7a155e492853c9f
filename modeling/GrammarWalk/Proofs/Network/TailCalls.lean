import GrammarWalk.Network.TailCall
import GrammarWalk.Proofs.Network.Explore
import GrammarWalk.Proofs.Network.Rewrite

/-! States with nothing but epsilon edges ahead: the search for them is exact, and it finds the same
states along the raw and along the optimized lists, unless a branch into a rule stop was merged as
if it were a match. -/

namespace GrammarWalk

/-- The search for the end of a rule gets past the state: it is a rule stop, or it has epsilon edges
and no others. -/
def State.Quiet (view : State → List Edge) (st : State) : Prop :=
  st.isRuleStop = true ∨ (st.isSilent = true ∧ view st ≠ [] ∧ ∀ e ∈ view st, e.isEpsilon = true)

/-- The same, with the targets of the edges in `S`. -/
def State.QuietInto (view : State → List Edge) (S : Nat → Prop) (st : State) : Prop :=
  st.isRuleStop = true ∨
    (st.isSilent = true ∧ view st ≠ [] ∧ ∀ e ∈ view st, e.isEpsilon = true ∧ S e.target)

theorem State.edges_ne_nil_of_isSilent {st : State} (h : st.isSilent = true) : st.edges ≠ [] :=
  fun hnil => by
  simp [State.isSilent, hnil] at h

theorem Edge.isEpsilon_of_isPlain {e : Edge} (h : e.isPlain = true) : e.isEpsilon = true := by
  cases e <;> first | rfl | cases h

theorem Edge.not_isEpsilon_of_isLabelled {e : Edge} (h : e.isLabelled = true) :
    e.isEpsilon = false := by
  cases e <;> first | rfl | cases h

theorem State.QuietInto.mono {view : State → List Edge} {S T : Nat → Prop} {st : State}
    (h : st.QuietInto view S) (hST : ∀ {t}, S t → T t) : st.QuietInto view T :=
  h.imp_right fun ⟨hsilent, hsome, hall⟩ => ⟨hsilent, hsome, fun e he => (hall e he).imp_right hST⟩

theorem State.not_quietInto_matching {view : State → List Edge} {S : Nat → Prop} {number : Nat}
    {r : Option Nat} {m : Edge} (hm : m.isLabelled = true) :
    ¬ (State.matching number r m).QuietInto view S := by
  rintro (hstop | ⟨hsilent, -⟩)
  · cases hstop
  · have hloud := (Edge.of_isLabelled hm).1
    simp [State.isSilent, State.matching, hloud] at hsilent

namespace Network

/-- An edge of state `s`, which is no rule stop, leads to `t`. -/
def HopsTo (net : Network) (view : State → List Edge) (s t : Nat) : Prop :=
  ∃ st, net.states[s]? = some st ∧ st.isRuleStop = false ∧ ∃ e ∈ view st, e.target = t

/-- Nothing but epsilon edges lies between `s` and the rule stops ahead of it. -/
def QuietAhead (net : Network) (view : State → List Edge) (s : Nat) : Prop :=
  ∀ t, Relation.ReflTransGen (net.HopsTo view) s t → ∃ st, net.states[t]? = some st ∧ st.Quiet view

/-- The states of `S` are quiet and lead into `S`. -/
def Hushed (net : Network) (view : State → List Edge) (S : Nat → Prop) : Prop :=
  ∀ s, S s → ∃ st, net.states[s]? = some st ∧ st.QuietInto view S

def Fed (net : Network) : Prop :=
  ∀ {s : Nat} {st : State}, net.states[s]? = some st → st.edges ≠ [] → st.followed ≠ []

/-- A rule stop that follows one match and nothing else has no other edges. -/
def StopsAsRaw (net : Network) : Prop :=
  ∀ {s : Nat} {st : State} {e : Edge}, net.states[s]? = some st → st.isRuleStop = true →
    st.followed = [e] →
    e.isLabelled = true → st.edges = [e]

/-- No rule stop has one match as its only edge. -/
def NoMatchingStop (net : Network) : Prop :=
  ∀ st ∈ net.states.toList, st.isRuleStop = true → ∀ e ∈ st.edges, e.isLabelled = true →
    st.edges.length ≠ 1

instance (net : Network) : Decidable net.NoMatchingStop := by
  unfold NoMatchingStop
  infer_instance

variable {net net' : Network} {view view' : State → List Edge} {free : Call → Edge → Prop}
  {S : Nat → Prop}
  {s i j : Nat} {st : State} {es es' : List Edge}

theorem quietAhead_iff : net.QuietAhead view s ↔ ∃ S, S s ∧ net.Hushed view S := by
  constructor
  · intro h
    refine ⟨Relation.ReflTransGen (net.HopsTo view) s, .refl, fun t ht => ?_⟩
    obtain ⟨st, hst, hquiet⟩ := h t ht
    refine ⟨st, hst, ?_⟩
    cases hstop : st.isRuleStop with
    | true => exact .inl hstop
    | false =>
      obtain hstop' | ⟨hsilent, hsome, hall⟩ := hquiet
      · exact absurd (hstop.symm.trans hstop') (by simp)
      · exact .inr ⟨hsilent, hsome, fun e he => ⟨hall e he, ht.tail ⟨st, hst, hstop, e, he, rfl⟩⟩⟩
  · rintro ⟨S, hs, hS⟩ t ht
    have hin : S t := by
      induction ht with
      | refl => exact hs
      | tail _ hstep ih =>
        obtain ⟨st, hst, hns, e, he, rfl⟩ := hstep
        obtain ⟨st', hst', hstop | ⟨-, -, hall⟩⟩ := hS _ ih
        · obtain rfl := Option.some.inj (hst.symm.trans hst')
          exact absurd (hns.symm.trans hstop) (by simp)
        · obtain rfl := Option.some.inj (hst.symm.trans hst')
          exact (hall e he).2
    obtain ⟨st, hst, hquiet⟩ := hS t hin
    exact ⟨st, hst, hquiet.imp_right fun ⟨hsilent, hsome, hall⟩ =>
      ⟨hsilent, hsome, fun e he => (hall e he).1⟩⟩

theorem QuietAhead.imp (h : net.QuietAhead view s)
    (hsame : ∀ {S : Nat → Prop} {t : Nat} {st : State}, net.states[t]? = some st →
      st.QuietInto view S → ∃ st', net'.states[t]? = some st' ∧ st'.QuietInto view' S) :
    net'.QuietAhead view' s := by
  obtain ⟨S, hs, hS⟩ := quietAhead_iff.1 h
  refine quietAhead_iff.2 ⟨S, hs, fun t ht => ?_⟩
  obtain ⟨st, hst, hquiet⟩ := hS t ht
  exact hsame hst hquiet

section search

variable {b : Bool}

/-- The states that the search for the end of a rule visits after `s`, or nothing if `s` stops
it. -/
def beyond (net : Network) (view : State → List Edge) (s : Nat) :
    Except Fault (Option (List Nat)) :=
  do
  let st ← net.state s
  if st.isRuleStop then return some []
  else if st.isSilent && (view st).all Edge.isEpsilon then return some ((view st).map Edge.target)
  else return none

theorem endsSilently_eq :
    net.endsSilently view s = exploreAll (net.beyond view) net.exploreBound [] [s] :=
  rfl

theorem beyond_eq_ok {t : Nat} {found : Option (List Nat)} (hn : net.beyond view t = .ok found) :
    ∃ st, net.states[t]? = some st ∧ ((st.isRuleStop = true ∧ found = some []) ∨
      (st.isRuleStop = false ∧ st.isSilent = true ∧ (∀ e ∈ view st, e.isEpsilon = true) ∧
        found = some ((view st).map Edge.target)) ∨
      (¬ st.Quiet view ∧ found = none)) := by
  obtain ⟨st, hst, hn⟩ := bind_eq_ok.1 hn
  refine ⟨st, state_eq_ok.1 hst, ?_⟩
  split at hn
  · exact .inl ⟨‹_›, (pure_eq_ok.1 hn).symm⟩
  · rename_i hns
    rw [Bool.not_eq_true] at hns
    split at hn
    · rename_i hcond
      simp only [Bool.and_eq_true, List.all_eq_true] at hcond
      exact .inr (.inl ⟨hns, hcond.1, hcond.2, (pure_eq_ok.1 hn).symm⟩)
    · rename_i hcond
      refine .inr (.inr ⟨?_, (pure_eq_ok.1 hn).symm⟩)
      rintro (hstop | ⟨hsilent, -, hall⟩)
      · rw [hns] at hstop
        cases hstop
      · simp only [Bool.and_eq_true, List.all_eq_true] at hcond
        exact hcond ⟨hsilent, hall⟩

theorem explored_of_hop {targets : List Nat} {t : Nat} (hn : net.beyond view s = .ok (some targets))
    (hop : net.HopsTo view s t) : Explored (net.beyond view) s t := by
  obtain ⟨st, hst, hns, e, he, rfl⟩ := hop
  obtain ⟨st', hst', hfound⟩ := beyond_eq_ok hn
  obtain rfl := Option.some.inj (hst.symm.trans hst')
  obtain ⟨hstop, -⟩ | ⟨-, -, -, heq⟩ | ⟨-, heq⟩ := hfound
  · exact absurd (hns.symm.trans hstop) (by simp)
  · refine ⟨targets, hn, ?_⟩
    rw [Option.some.inj heq]
    exact List.mem_map_of_mem he
  · cases heq

theorem hop_of_explored {t : Nat} (h : Explored (net.beyond view) s t) : net.HopsTo view s t := by
  obtain ⟨targets, hn, hmem⟩ := h
  obtain ⟨st, hst, ⟨-, heq⟩ | ⟨hns, -, -, heq⟩ | ⟨-, heq⟩⟩ := beyond_eq_ok hn
  · rw [Option.some.inj heq] at hmem
    cases hmem
  · rw [Option.some.inj heq] at hmem
    obtain ⟨e, he, rfl⟩ := List.mem_map.1 hmem
    exact ⟨st, hst, hns, e, he, rfl⟩
  · cases heq

/-- The search for the end of a rule finds out whether nothing but epsilon edges lies ahead. -/
theorem endsSilently_iff
    (hfed : ∀ {s : Nat} {st : State}, net.states[s]? = some st → st.edges ≠ [] → view st ≠ [])
    (h : net.endsSilently view s = .ok b) : b = true ↔ net.QuietAhead view s := by
  rw [endsSilently_eq] at h
  cases b with
  | true =>
    refine ⟨fun _ t ht => ?_, fun _ => rfl⟩
    have hasked {t : Nat} (ht : Relation.ReflTransGen (Explored (net.beyond view)) s t) :=
      exploreAll_reaches h .start (.inr List.mem_cons_self) ht
    have hexplored : Relation.ReflTransGen (Explored (net.beyond view)) s t := by
      induction ht with
      | refl => exact .refl
      | tail _ hop ih =>
        obtain ⟨targets, hn⟩ := hasked ih
        exact ih.tail (explored_of_hop hn hop)
    obtain ⟨targets, hn⟩ := hasked hexplored
    obtain ⟨st, hst, ⟨hstop, -⟩ | ⟨-, hsilent, hall, -⟩ | ⟨-, heq⟩⟩ := beyond_eq_ok hn
    · exact ⟨st, hst, .inl hstop⟩
    · exact ⟨st, hst, .inr ⟨hsilent, hfed hst (st.edges_ne_nil_of_isSilent hsilent), hall⟩⟩
    · cases heq
  | false =>
    refine ⟨nofun, fun hquiet => ?_⟩
    obtain ⟨s', hs', t, hst, hstops⟩ := exploreAll_stops h
    obtain rfl := List.mem_singleton.1 hs'
    obtain ⟨st, hst, hq⟩ :=
      hquiet t (Relation.ReflTransGen.mono (fun _ _ => hop_of_explored) _ _ hst)
    obtain ⟨st', hst', hfound⟩ := beyond_eq_ok hstops
    obtain rfl := Option.some.inj (hst.symm.trans hst')
    obtain ⟨-, heq⟩ | ⟨-, -, -, heq⟩ | ⟨hloud, -⟩ := hfound
    · cases heq
    · cases heq
    · exact absurd hq hloud

end search

section rewrite

theorem Splices.followed_ne_nil {e : Edge} {m : State} (h : net.Splices s e m) (hfed : net.Fed) :
    m.followed ≠ [] :=
  hfed h.state (m.edges_ne_nil_of_isSilent h.silent)

theorem Replaced.length_le (h : Replaced free net net' s i j es es') (hfed : net.Fed) :
    es.length ≤ es'.length := by
  induction h with
  | nil => exact Nat.le_refl _
  | keep _ ih => exact Nat.succ_le_succ ih
  | splice hs _ ih =>
    have := List.length_pos_iff.2 (hs.followed_ne_nil hfed)
    simp only [List.length_cons, List.length_append, List.length_map]
    omega
  | inline _ _ ih => exact Nat.succ_le_succ ih

theorem Rewrite.fed (h : Rewrite free net net') (hfed : net.Fed) : net'.Fed := by
  obtain ⟨x, xst, es', g, hnew⟩ := h.grows
  intro s st hs hsome
  by_cases hlt : s < net.states.size
  · rcases g.cases hs hlt with ⟨rfl, rfl⟩ | ⟨-, hold⟩
    · have hpos := List.length_pos_iff.2 (hfed g.state hsome)
      obtain ⟨i, j, hr⟩ | ⟨fresh, m, hm⟩ := hnew
      · exact List.length_pos_iff.1 (Nat.lt_of_lt_of_le hpos (hr.length_le hfed))
      · exact List.ne_nil_of_mem hm.joined
    · exact hfed hold hsome
  · obtain ⟨m, o, rfl, -⟩ := g.new hs (Nat.not_lt.1 hlt)
    exact hsome

theorem Rewrite.stopsAsRaw (h : Rewrite free net net') (hfed : net.Fed) (hstops : net.StopsAsRaw) :
    net'.StopsAsRaw := by
  obtain ⟨x, xst, es', g, hnew⟩ := h.grows
  intro s st e hs hstop he hlabel
  by_cases hlt : s < net.states.size
  · rcases g.cases hs hlt with ⟨rfl, rfl⟩ | ⟨-, hold⟩
    · obtain rfl : es' = [e] := he
      obtain ⟨i, j, hr⟩ | ⟨fresh, m, hm⟩ := hnew
      · -- the match was there before, and nothing that was there is gone
        have hmem : e ∈ xst.followed := by
          rcases hr.mem_of (List.mem_singleton_self e) with hmem | ⟨_, _, _, _, _, _, rfl⟩ | ⟨_,
            _, _, _, _, rfl⟩
          · exact hmem
          · cases hlabel
          · cases hlabel
        obtain ⟨e', he'⟩ := List.length_eq_one_iff.1
          (Nat.le_antisymm (hr.length_le hfed) (List.length_pos_of_mem hmem))
        rw [he'] at hmem
        obtain rfl := List.mem_singleton.1 hmem
        have hraw : xst.edges = [e] := hstops g.state hstop he' hlabel
        exact hraw
      · obtain rfl := List.mem_singleton.1 hm.joined
        cases hlabel
    · exact hstops hold hstop he hlabel
  · obtain ⟨m, o, rfl, -⟩ := g.new hs (Nat.not_lt.1 hlt)
    cases hstop

/-- The raw lists ahead are quiet after a rewrite if and only if they were so before it. -/
theorem Grows.quietAhead_edges (g : Grows net net' i st es') :
    net'.QuietAhead State.edges s ↔ net.QuietAhead State.edges s := by
  constructor
  · refine fun h => h.imp fun {S t st'} hst' hquiet => ?_
    by_cases hlt : t < net.states.size
    · rcases g.cases hst' hlt with ⟨rfl, rfl⟩ | ⟨-, hold⟩
      · exact ⟨st, g.state, hquiet⟩
      · exact ⟨st', hold, hquiet⟩
    · obtain ⟨m, o, rfl, hm, -⟩ := g.new hst' (Nat.not_lt.1 hlt)
      exact absurd hquiet (State.not_quietInto_matching hm)
  · refine fun h => h.imp fun {S t st'} hst' hquiet => ?_
    obtain ⟨l, hl⟩ := g.old hst'
    exact ⟨_, hl, hquiet⟩

/-- Where the rewritten lists ahead are quiet, those before were: the states spliced out are quiet,
and no call was inlined and no branch was merged, since the new states take input. -/
theorem Rewrite.quietAhead_of_followed (h : Rewrite free net net') (hfed : net.Fed)
    (hq : net'.QuietAhead State.followed s) : net.QuietAhead State.followed s := by
  obtain ⟨x, xst, es', g, hnew⟩ := h.grows
  obtain ⟨S, hs, hS⟩ := quietAhead_iff.1 hq
  have hloud {fresh : Nat} {r : Option Nat} {m : Edge}
    (hst : net'.states[fresh]? = some (.matching fresh r m))
      (hm : m.isLabelled = true) : ¬ S fresh := fun hin => by
    obtain ⟨st, hst', hquiet⟩ := hS fresh hin
    obtain rfl := Option.some.inj (hst.symm.trans hst')
    exact State.not_quietInto_matching hm hquiet
  -- the states of `S`, and those that were spliced out before them
  let T (t : Nat) : Prop := S t ∨ ∃ m, net.states[t]? = some m ∧ m.isSilent = true ∧
    (∀ hop ∈ m.followed, hop.isPlain = true ∧ S hop.target)
  have hT : net.Hushed State.followed T := by
    rintro t (ht | ⟨m, hm, hsilent, hhops⟩)
    · obtain ⟨st', hst', hquiet⟩ := hS t ht
      by_cases hlt : t < net.states.size
      · rcases g.cases hst' hlt with ⟨rfl, rfl⟩ | ⟨-, hold⟩
        · refine ⟨xst, g.state, hquiet.imp_right fun ⟨hsilent, _, hall⟩ =>
            ⟨hsilent, ?_, fun e he => ?_⟩⟩
          · exact hfed g.state (xst.edges_ne_nil_of_isSilent hsilent)
          · have hkept (he : e ∈ es') : e.isEpsilon = true ∧ T e.target :=
              (hall e he).imp_right .inl
            have hinto {fresh : Nat} (he : Edge.plain fresh ∈ es') : S fresh :=
              (hall (.plain fresh) he).2
            obtain ⟨i, j, hr⟩ | ⟨fresh, m, hm⟩ := hnew
            · rcases hr.of_mem he with he | ⟨m, hm, hhops⟩ | ⟨c, fresh, m, rfl, hi, he⟩
              · exact hkept he
              · refine ⟨Edge.isEpsilon_of_isPlain hm.plain,
                  .inr ⟨m, hm.state, hm.silent, fun hop hhop => ?_⟩⟩
                exact ⟨hm.hops hop hhop, hinto (hhops hop hhop)⟩
              · exact absurd (hinto he)
                  (hloud hi.state ((isLabelled_retarget ..).trans hi.labelled))
            · exact absurd (hinto hm.joined) (hloud hm.state hm.labelled)
        · exact ⟨st', hold, hquiet.mono .inl⟩
      · obtain ⟨m, o, rfl, hm, -⟩ := g.new hst' (Nat.not_lt.1 hlt)
        exact absurd hquiet (State.not_quietInto_matching hm)
    · refine ⟨m, hm, .inr ⟨hsilent, hfed hm (m.edges_ne_nil_of_isSilent hsilent),
        fun hop hhop => ?_⟩⟩
      exact ⟨Edge.isEpsilon_of_isPlain (hhops hop hhop).1, .inl (hhops hop hhop).2⟩
  exact quietAhead_iff.2 ⟨T, .inl hs, hT⟩

/-- Where the lists ahead are quiet, the rewritten ones are, if no rule stop has one match for all
its edges. -/
theorem Rewrite.quietAhead_followed (h : Rewrite free net net') (hfed : net.Fed)
    (hstops : net.StopsAsRaw) (hno : net.NoMatchingStop) (hq : net.QuietAhead State.followed s) :
    net'.QuietAhead State.followed s := by
  have hfed' : net'.Fed := h.fed hfed
  obtain ⟨x, xst, es', g, hnew⟩ := h.grows
  obtain ⟨S, hs, hS⟩ := quietAhead_iff.1 hq
  refine quietAhead_iff.2 ⟨S, hs, fun t ht => ?_⟩
  obtain ⟨st, hst, hquiet⟩ := hS t ht
  by_cases htx : t = x
  · subst htx
    obtain rfl := Option.some.inj (g.state.symm.trans hst)
    refine ⟨_, g.changed, hquiet.imp_right fun ⟨hsilent, _, hall⟩ => ⟨hsilent, ?_, fun e he => ?_⟩⟩
    · exact hfed' g.changed (xst.edges_ne_nil_of_isSilent hsilent)
    · obtain ⟨i, j, hr⟩ | ⟨fresh, m, hm⟩ := hnew
      · rcases hr.mem_of he with he | ⟨f, hf, m, hm, hop, hhop, rfl⟩ | ⟨c, fresh, m, hc, -, -⟩
        · exact hall e he
        · obtain ⟨m', hm', hstop | ⟨-, -, hhops⟩⟩ := hS _ (hall f hf).2
          · obtain rfl := Option.some.inj (hm.state.symm.trans hm')
            rw [hm.not_stop] at hstop
            cases hstop
          · obtain rfl := Option.some.inj (hm.state.symm.trans hm')
            exact ⟨rfl, (hhops hop hhop).2⟩
        · cases (hall _ hc).1
      · -- a branch that is merged is no quiet state, and no rule stop either
        obtain ⟨members, rest, hperm, -, htwo, hmembers⟩ := hm.parts
        obtain ⟨f, hf⟩ := List.exists_mem_of_length_pos (Nat.lt_of_succ_lt htwo)
        obtain ⟨b, hb, -⟩ := hmembers f hf
        obtain ⟨bst, hbst, hbf⟩ := hb.state
        obtain ⟨bst', hbst', hquiet⟩ :=
          hS _ (hall f (hperm.mem_iff.2 (List.mem_append_left _ hf))).2
        obtain rfl := Option.some.inj (hbst.symm.trans hbst')
        obtain hstop | ⟨-, -, hall'⟩ := hquiet
        · have hraw := hstops hbst hstop hbf hb.labelled
          refine absurd ?_
            (hno bst (Array.mem_toList_iff.2 (Array.mem_of_getElem? hbst)) hstop b ?_ hb.labelled)
          · rw [hraw, List.length_singleton]
          · rw [hraw]
            exact List.mem_singleton_self b
        · have hepsilon := (hall' b (by simp [hbf])).1
          rw [Edge.not_isEpsilon_of_isLabelled hb.labelled] at hepsilon
          cases hepsilon
  · exact ⟨st, g.kept hst htx, hquiet⟩

theorem NoMatchingStop.of_grows (h : net'.NoMatchingStop) (g : Grows net net' s st es') :
    net.NoMatchingStop := by
  intro old hold
  obtain ⟨t, ht⟩ := Array.mem_iff_getElem?.1 (Array.mem_toList_iff.1 hold)
  obtain ⟨l, hl⟩ := g.old ht
  have hno := h _ (Array.mem_toList_iff.2 (Array.mem_of_getElem? hl))
  exact hno

/-- Along the optimized lists nothing but epsilon edges lies ahead only where this is so along the
raw lists; and if no rule stop has one match for all its edges, the two are the same. -/
structure TailsAgree (net : Network) : Prop where
  fed : net.Fed
  stops : net.StopsAsRaw
  raw : ∀ {s : Nat}, net.QuietAhead State.followed s → net.QuietAhead State.edges s
  followed : net.NoMatchingStop → ∀ {s : Nat}, net.QuietAhead State.edges s →
    net.QuietAhead State.followed s

theorem TailsAgree.rewrite (h : net.TailsAgree) (hr : Rewrite free net net') : net'.TailsAgree := by
  obtain ⟨x, xst, es', g, -⟩ := hr.grows
  refine ⟨hr.fed h.fed, hr.stopsAsRaw h.fed h.stops, fun hq => ?_, fun hno s hq => ?_⟩
  · exact g.quietAhead_edges.2 (h.raw (hr.quietAhead_of_followed h.fed hq))
  · have hno := hno.of_grows g
    exact hr.quietAhead_followed h.fed h.stops hno (h.followed hno (g.quietAhead_edges.1 hq))

theorem TailsAgree.of_followed_eq
    (h : ∀ {s : Nat} {st : State}, net.states[s]? = some st → st.followed = st.edges) :
    net.TailsAgree where
  fed hs hsome := h hs ▸ hsome
  stops hs _ he _ := (h hs).symm.trans he
  raw hq := hq.imp fun hst hquiet => ⟨_, hst, by rwa [State.QuietInto, h hst] at hquiet⟩
  followed _ _ hq := hq.imp fun hst hquiet => ⟨_, hst, by rwa [State.QuietInto, h hst]⟩

end rewrite

end Network

end GrammarWalk
