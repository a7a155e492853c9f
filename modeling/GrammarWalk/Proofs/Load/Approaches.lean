import GrammarWalk.Proofs.Load.Followed

/-! States from which the only way leads over plain edges to a precedence edge. The lists that a
loaded network follows keep these ways: an optimization may pass over some of their states, and does
nothing else to them. -/

namespace GrammarWalk

namespace Network

variable {net net' : Network} {free : Call → Edge → Prop} {s i j : Nat} {st : State} {e : Edge}
  {es' : List Edge}
  {level : Int}

/-- The only way on from a state leads over plain edges to a precedence edge of the level. -/
inductive Approaches (net : Network) (level : Int) : Nat → Prop
  | here {s t : Nat} {st : State} : net.states[s]? = some st → st.isRuleStop = false →
      st.edges = [.precedence t level] → Approaches net level s
  | on {s t : Nat} {st : State} : net.states[s]? = some st → st.isRuleStop = false →
      st.edges = [.plain t] →
      Approaches net level t → Approaches net level s

/-- The list is a precedence edge of the level, or one plain edge that approaches such an edge. -/
def Heads (net : Network) (level : Int) (es : List Edge) : Prop :=
  (∃ t, es = [.precedence t level]) ∨ ∃ t, es = [.plain t] ∧ net.Approaches level t

/-- The followed lists lead to the same precedence edges, perhaps past some of the states before
them. -/
def FollowsApproaches (net : Network) : Prop :=
  ∀ s level, net.Approaches level s → ∃ st, net.states[s]? = some st ∧ st.isRuleStop = false ∧
    net.Heads level st.followed

theorem Approaches.of_edges (h : net.Approaches level s)
    (hsame : ∀ {s : Nat} {st : State} {e : Edge}, net.states[s]? = some st → st.edges = [e] →
      e.isLabelled = false → e.call? = none → ∃ st', net'.states[s]? = some st' ∧
      st'.isRuleStop = st.isRuleStop ∧ st'.edges = [e]) : net'.Approaches level s := by
  induction h with
  | here hs hns hedges =>
    obtain ⟨st', hs', hstop, hedges'⟩ := hsame hs hedges rfl rfl
    exact .here hs' (hstop.trans hns) hedges'
  | on hs hns hedges _ ih =>
    obtain ⟨st', hs', hstop, hedges'⟩ := hsame hs hedges rfl rfl
    exact .on hs' (hstop.trans hns) hedges' ih

theorem Grows.approaches_iff (g : Grows net net' i st es') :
    net'.Approaches level s ↔ net.Approaches level s := by
  refine ⟨fun h => h.of_edges fun {s st' e} hs he hlabel _ => ?_,
    fun h => h.of_edges fun hs he _ _ => ?_⟩
  · by_cases hlt : s < net.states.size
    · rcases g.cases hs hlt with ⟨rfl, rfl⟩ | ⟨-, hold⟩
      · exact ⟨st, g.state, rfl, he⟩
      · exact ⟨st', hold, rfl, he⟩
    · obtain ⟨m, r, rfl, hm, -⟩ := g.new hs (Nat.not_lt.1 hlt)
      obtain rfl := List.singleton_inj.1 he
      rw [hm] at hlabel
      cases hlabel
  · obtain ⟨l, hs'⟩ := g.old hs
    exact ⟨_, hs', rfl, he⟩

theorem Heads.imp {es : List Edge} (h : net.Heads level es)
    (hn : ∀ t, net.Approaches level t → net'.Approaches level t) : net'.Heads level es :=
  h.imp_right fun ⟨t, hlist, ht⟩ => ⟨t, hlist, hn t ht⟩

theorem Heads.replaced (h : net.Heads level st.followed) (hf : net.FollowsApproaches)
    (hr : Replaced free net net' s i j st.followed es') : net.Heads level es' := by
  obtain ⟨t, hlist⟩ | ⟨t, hlist, ht⟩ := h
  · rw [hlist] at hr
    obtain ⟨rfl, -⟩ | ⟨m, hm, -⟩ := hr.of_single rfl
    · exact .inl ⟨t, rfl⟩
    · cases hm.plain
  · rw [hlist] at hr
    obtain ⟨rfl, -⟩ | ⟨m, hm, rfl⟩ := hr.of_single rfl
    · exact .inr ⟨t, rfl, ht⟩
    · -- the edge makes room for those of its target, which approaches the precedence edge too
      obtain ⟨m', hm', -, hnext⟩ := hf t level ht
      obtain rfl := Option.some.inj (hm.state.symm.trans hm')
      obtain ⟨u, hlist'⟩ | ⟨u, hlist', hu⟩ := hnext
      · cases hm.hops (.precedence u level) (by simp [hlist'])
      · exact .inr ⟨u, by rw [hlist']; rfl, hu⟩

theorem Heads.length_eq {es : List Edge} (h : net.Heads level es) : es.length = 1 := by
  obtain ⟨t, rfl⟩ | ⟨t, rfl, -⟩ := h <;> rfl

theorem FollowsApproaches.rewrite (hf : net.FollowsApproaches) (h : Rewrite free net net') :
    net'.FollowsApproaches := by
  obtain ⟨x, xst, es', g, hnew⟩ := h.grows
  intro s level ha
  obtain ⟨st, hs, hns, hheads⟩ := hf s level (g.approaches_iff.1 ha)
  by_cases hsx : s = x
  · subst hsx
    obtain rfl := Option.some.inj (g.state.symm.trans hs)
    refine ⟨_, g.changed, hns, Heads.imp ?_ fun t => g.approaches_iff.2⟩
    obtain ⟨i, j, hr⟩ | ⟨fresh, m, hm⟩ := hnew
    · exact hheads.replaced hf hr
    · exact absurd hheads.length_eq (Nat.ne_of_gt hm.one_lt_length)
  · exact ⟨st, g.kept hs hsx, hns, hheads.imp fun t => g.approaches_iff.2⟩

theorem approaches_withTailCalls_iff (hn : net.withTailCalls = .ok net') :
    net'.Approaches level s ↔ net.Approaches level s := by
  refine ⟨fun h => h.of_edges fun hs he _ hcall => ?_, fun h => h.of_edges fun hs he _ hcall => ?_⟩
  · obtain ⟨st, hst, hj⟩ := judged_of_getElem? hn hs
    exact ⟨st, hst, by rw [hj.rest]; rfl, (single_iff_of_judged hj.edges hcall).1 he⟩
  · obtain ⟨st', hs', hj⟩ := getElem?_withTailCalls hn hs
    exact ⟨st', hs', by rw [hj.rest]; rfl, (single_iff_of_judged hj.edges hcall).2 he⟩

theorem Heads.judged {es : List Edge} (h : net.Heads level es) (hj : List.Forall₂ Judged es es') :
    net.Heads level es' := by
  obtain ⟨t, hlist⟩ | ⟨t, hlist, ht⟩ := h
  · exact .inl ⟨t, (single_iff_of_judged hj rfl).2 hlist⟩
  · exact .inr ⟨t, (single_iff_of_judged hj rfl).2 hlist, ht⟩

theorem FollowsApproaches.withTailCalls (hf : net.FollowsApproaches)
    (hn : net.withTailCalls = .ok net') : net'.FollowsApproaches := by
  intro s level ha
  obtain ⟨st, hs, hns, hheads⟩ := hf s level ((approaches_withTailCalls_iff hn).1 ha)
  obtain ⟨st', hs', hj⟩ := getElem?_withTailCalls hn hs
  refine ⟨st', hs', by rw [hj.rest]; exact hns, (hheads.judged hj.followed).imp fun t => ?_⟩
  exact (approaches_withTailCalls_iff hn).2

theorem Draft.followsApproaches (hd : net.Draft) : net.FollowsApproaches := by
  intro s level h
  cases h with
  | here hs hns hedges => exact ⟨_, hs, hns, .inl ⟨_, (hd.followed_eq hs).trans hedges⟩⟩
  | on hs hns hedges ht => exact ⟨_, hs, hns, .inr ⟨_, (hd.followed_eq hs).trans hedges, ht⟩⟩

theorem FollowsApproaches.ensureOptimized (hf : net.FollowsApproaches) :
    FollowsApproaches { net with states := net.states.map State.ensureOptimized } := by
  intro s level ha
  have hold : net.Approaches level s := ha.of_edges fun hs he _ _ => by
    obtain ⟨old, hold, rfl⟩ := exists_of_ensureOptimized hs
    exact ⟨old, hold, rfl, he⟩
  obtain ⟨st, hs, hns, hheads⟩ := hf s level hold
  refine ⟨_, ensureOptimized_getElem? hs, hns, ?_⟩
  rw [followed_ensureOptimized]
  exact hheads.imp fun t ht => ht.of_edges fun hs he _ _ =>
    ⟨_, ensureOptimized_getElem? hs, rfl, he⟩

end Network

/-- The lists that a loaded network follows lead to the same precedence edges as the raw ones. -/
theorem loadWords_followsApproaches {words : List Wire.Word} {options : LoadOptions} {net : Network}
    (hn : loadWords words options = .ok net) : net.FollowsApproaches := by
  obtain ⟨decoded, bypassed, opt, hdecode, hbypass, hopt, -, htails⟩ := loadWords_eq_ok hn
  obtain ⟨hd, hsize⟩ := bypassed_keeps hdecode hbypass
  obtain ⟨-, rfl⟩ | ⟨-, changes, ho⟩ := hopt
  · exact hd.followsApproaches.withTailCalls htails
  · have hopt : opt.FollowsApproaches :=
      Network.optimize_of_rewrites (P := Network.FollowsApproaches) (hd.toWired.inRange hsize.ge)
        hd.followsApproaches.ensureOptimized (fun hm hstep => hm.rewrite hstep) ho
    exact hopt.withTailCalls htails

end GrammarWalk
