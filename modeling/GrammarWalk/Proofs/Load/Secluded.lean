import GrammarWalk.Proofs.Load.Edges
import GrammarWalk.Proofs.Load.Followed
import GrammarWalk.Proofs.Network.Language

/-! What the rewrites of a lexer keep whose rules keep to themselves: the followed lists stay in a
rule as the raw lists do, an edge is followed in the place of each raw edge, and the match found for
a rule that is called is the rule's only one, even where the search for it runs past a rule stop. -/

namespace GrammarWalk

theorem Edge.of_matchesOrCalls {e : Edge} (h : e.matchesOrCalls = true) :
    e.isPlain = false ∧ e.isEpsilon = false := by
  cases e <;> simp_all [matchesOrCalls, isPlain, isEpsilon]

namespace Network

/-- The rules keep to themselves. A call enters its rule at the start, an edge of a state goes on in
the state's rule but for return edges, no state outside the rules matches or calls, and each state
of a rule is reached from the rule's start. -/
structure Secluded (net : Network) : Prop where
  calls : net.CallsEnterRules
  inside : ∀ r, net.KeepsTo State.edges (some r)
  stops : ∀ {s : Nat} {st : State} {e : Edge}, net.states[s]? = some st → st.isRuleStop = true →
    e ∈ st.edges →
    net.ownerOf e.onward = st.rule ∨ e.isEpsilon = true ∧ ∃ (t : Nat) (caller : State) (c : Call),
      net.states[t]? = some caller ∧ .call c ∈ caller.edges ∧ c.follow = e.target
  outside : ∀ {s : Nat} {st : State}, net.states[s]? = some st → st.rule = none → ∀ e ∈ st.edges,
    e.matchesOrCalls = false
  reached : net.ReachedFromStarts

/-- Where a call goes on, an edge from the stop of its rule leads. -/
def Returning (net : Network) : Prop :=
  ∀ {s : Nat} {st : State} {c : Call}, net.states[s]? = some st → .call c ∈ st.edges →
    ∃ stop z mark, net.ruleStops[c.rule]? = some stop ∧ net.states[stop]? = some z ∧
    .epsilon c.follow mark ∈ z.edges

/-- A choice is made in silence, by a state that is not basic, and a state without one prefers
nothing. -/
structure Linear (net : Network) : Prop where
  loud : ∀ {s : Nat} {st : State}, net.states[s]? = some st → st.isSilent = false →
    st.edges.length ≤ 1
  basic : ∀ {s : Nat} {st : State}, net.states[s]? = some st → st.kind = .basic →
    st.edges.length ≤ 1
  greedy : ∀ {s : Nat} {st : State}, net.states[s]? = some st → st.edges.length = 1 →
    st.isNonGreedy = false

/-- No state of the rule matches or calls, not even its stops. -/
def Hollow (net : Network) (view : State → List Edge) (r : Nat) : Prop :=
  ∀ {s : Nat} {st : State}, net.states[s]? = some st → st.rule = some r →
    ∀ e ∈ view st, e.matchesOrCalls = false

/-- What a rule stop follows for an edge: the edge, or a new state for a call. -/
def StopEdge (n : Nat) (e e' : Edge) : Prop := e' = e ∨ e.call?.isSome = true ∧ n ≤ e'.target

/-- `net` is the lexer `base` after some rewrites. -/
structure Tuned (base net : Network) : Prop extends SameRaw base net where
  wired : net.Wired
  lexer : net.kind = .lexer
  size : base.states.size ≤ net.states.size
  sees : SeesAll base net
  calls : ∀ {s : Nat} {st : State} {c : Call}, net.states[s]? = some st → .call c ∈ st.followed →
    ∃ (t : Nat) (raw : State), base.states[t]? = some raw ∧ .call c ∈ raw.edges
  followsRaw : net.FollowsRaw
  keeps : ∀ r, net.KeepsTo State.followed (some r)
  lengths : ∀ {s : Nat} {st : State}, net.states[s]? = some st →
    st.followed.length = st.edges.length
  linear : net.Linear
  stops : ∀ {s : Nat} {st : State}, net.states[s]? = some st → st.isRuleStop = true →
    s < base.states.size ∧ List.Forall₂ (StopEdge base.states.size) st.edges st.followed
  owned : ∀ {s : Nat} {st : State} {e : Edge}, net.states[s]? = some st → e ∈ st.followed →
    e.matchesOrCalls = true →
    st.rule ≠ none
  hollow : ∀ {r : Nat}, base.Hollow State.edges r → net.Hollow State.followed r

variable {base net net' a b : Network} {free : Call → Edge → Prop} {s t i j r : Nat} {st : State}
  {es es' : List Edge}
  {e m : Edge} {c : Call}

theorem SameRaw.ownerOf_eq (h : SameRaw base net) (hs : s < base.states.size) :
    net.ownerOf s = base.ownerOf s := by
  have hst := Array.getElem?_eq_getElem hs
  obtain ⟨l, hl⟩ := h.old hst
  rw [Network.ownerOf_eq hst, Network.ownerOf_eq hl]

theorem SameRaw.exists_old (h : SameRaw base net) (hs : s < base.states.size)
    (hst : net.states[s]? = some st) :
    ∃ old, base.states[s]? = some old ∧ old.rule = st.rule ∧ old.isRuleStop = st.isRuleStop ∧
      old.edges = st.edges := by
  have hold := Array.getElem?_eq_getElem hs
  obtain ⟨l, hl⟩ := h.old hold
  obtain rfl := Option.some.inj (hst.symm.trans hl)
  exact ⟨_, hold, rfl, rfl, rfl⟩

namespace Secluded

variable (he : Secluded base)
include he

theorem ownerOf_onward (hst : base.states[s]? = some st) (hmem : e ∈ st.edges)
    (hm : e.matchesOrCalls = true) : ∃ r, st.rule = some r ∧ base.ownerOf e.onward = some r := by
  obtain ⟨r, hr⟩ : ∃ r, st.rule = some r := Option.ne_none_iff_exists'.1 fun hnone => by
    rw [he.outside hst hnone e hmem] at hm
    cases hm
  refine ⟨r, hr, ?_⟩
  cases hstop : st.isRuleStop with
  | false => exact he.inside r ⟨st, hst, hstop, e, hmem, rfl⟩ ((ownerOf_eq hst).trans hr)
  | true =>
    obtain hin | ⟨hepsilon, -⟩ := he.stops hst hstop hmem
    · exact hin.trans hr
    · rw [(Edge.of_matchesOrCalls hm).2] at hepsilon
      cases hepsilon

theorem ownerOf_of_leads (hl : base.Leads State.edges s t) (hs : base.ownerOf s = some r) :
    base.ownerOf t = some r := by
  induction hl with
  | refl => exact hs
  | tail _ hstep ih => exact he.inside r hstep ih

theorem rule_of_start (hb : base.Wired) {start stop : Nat}
    (hstart : base.ruleStarts[r]? = some start) (hstop : base.ruleStops[r]? = some stop) {r' : Nat}
    (ho : base.ownerOf start = some r') : r' = r := by
  obtain ⟨sst, hsst, -, hrule⟩ := hb.stop hstop
  obtain ⟨start', hstart', hlead⟩ := he.reached hsst hrule
  obtain rfl := Option.some.inj (hstart.symm.trans hstart')
  have := he.ownerOf_of_leads hlead ho
  rw [Network.ownerOf_eq hsst, hrule] at this
  exact (Option.some.inj this).symm

/-- Where calls have their return edges, an edge leads from the stop of each rule that is called to
where the call goes on. -/
theorem returning (hb : base.Wired) (hsize : base.ruleStops.size = base.ruleStarts.size)
    (hreturn : base.CallsReturn) : Returning base := by
  intro s st c hst hc
  have hstart := he.calls hst hc
  obtain ⟨stop, hstop⟩ : ∃ stop, base.ruleStops[c.rule]? = some stop :=
    ⟨_, Array.getElem?_eq_getElem (hsize ▸ (Array.getElem?_eq_some_iff.1 hstart).1)⟩
  have hcalled : base.calledRule c = c.rule := by
    obtain ⟨sst, hsst, -⟩ := hb.start hstart
    rw [calledRule, hsst, Option.bind_some]
    cases ho : sst.rule with
    | none => rfl
    | some r => exact he.rule_of_start hb hstart hstop ((Network.ownerOf_eq hsst).trans ho)
  obtain ⟨z, mark, hz, hmem⟩ := hreturn hst hc ((congrArg (base.ruleStops[·]?) hcalled).trans hstop)
  exact ⟨stop, z, mark, hstop, hz, hmem⟩

/-- From no other rule's stop an epsilon edge enters the stop of a rule that neither matches nor
calls. -/
theorem rule_of_epsilon (hb : base.Wired) {stop : Nat} (hstop : base.ruleStops[r]? = some stop)
    (hollow : base.Hollow State.edges r) (hst : base.states[s]? = some st)
    (hs : st.isRuleStop = true) {mark : Option Nat} (hmem : .epsilon stop mark ∈ st.edges) :
    st.rule = some r := by
  obtain ⟨sst, hsst, -, hrule⟩ := hb.stop hstop
  obtain hin | ⟨-, u, caller, c, hu, hc, hfollow⟩ := he.stops hst hs hmem
  · exact hin.symm.trans ((Network.ownerOf_eq hsst).trans hrule)
  · obtain ⟨r', hr', hon⟩ := he.ownerOf_onward hu hc rfl
    have hon : base.ownerOf c.follow = some r' := hon
    rw [hfollow, show (Edge.epsilon stop mark).target = stop from rfl,
      Network.ownerOf_eq hsst, hrule] at hon
    obtain rfl := Option.some.inj hon
    cases hollow hu hr' _ hc

end Secluded

namespace Tuned

variable (h : Tuned base net) (he : Secluded base)
include h

theorem exists_hop (hs : net.Splices s e st) : ∃ hop, st.followed = [hop] := by
  have hle := h.linear.basic hs.state hs.basic
  have hne := hs.silent
  rw [State.isSilent, Bool.and_eq_true, Bool.not_eq_true', List.isEmpty_eq_false_iff] at hne
  have hpos := List.length_pos_iff.2 hne.1
  exact List.length_eq_one_iff.1 ((h.lengths hs.state).trans (by omega))

include he

theorem ownerOf_onward (hst : net.states[s]? = some st) (hmem : e ∈ st.followed)
    (hm : e.matchesOrCalls = true) : ∃ r, st.rule = some r ∧ net.ownerOf e.onward = some r := by
  cases hstop : st.isRuleStop with
  | false =>
    obtain ⟨r, hr⟩ := Option.ne_none_iff_exists'.1 (h.owned hst hmem hm)
    exact ⟨r, hr, h.keeps r ⟨st, hst, hstop, e, hmem, rfl⟩ ((ownerOf_eq hst).trans hr)⟩
  | true =>
    obtain ⟨hlt, -⟩ := h.stops hst hstop
    obtain ⟨old, hold, hrule, -, hedges⟩ := h.exists_old hlt hst
    have hraw := h.followsRaw hst hmem (Edge.of_matchesOrCalls hm).1
    obtain ⟨r, hr, hon⟩ := he.ownerOf_onward hold (hedges ▸ hraw) hm
    exact ⟨r, hrule ▸ hr, (h.ownerOf_eq (lt_size_of_ownerOf hon)).trans hon⟩

end Tuned

section rewrite

/-- An edge by edge rewrite of one state, without splicing if the state is a rule stop. -/
structure Rewrites (a b : Network) (s : Nat) (st : State) (es' : List Edge)
    (free : Call → Edge → Prop) (i j : Nat) : Prop extends Grows a b s st es' where
  replaced : Replaced free a b s i j st.followed es'
  pos : 0 < i + j
  stop : st.isRuleStop = true → j = 0

theorem Rewrites.rewrite (h : Rewrites a b s st es' free i j) : Rewrite free a b :=
  .replace h.toGrows h.replaced h.pos

theorem Replaced.stopEdges (h : Replaced free a b s i 0 es es') :
    List.Forall₂ (StopEdge a.states.size) es es' := by
  generalize hj : 0 = j at h
  induction h with
  | nil => exact .nil
  | keep _ ih => exact .cons (.inl rfl) (ih hj)
  | splice => cases hj
  | inline hi _ ih => exact .cons (.inr ⟨rfl, hi.beyond⟩) (ih hj)

theorem StopEdge.trans {n k : Nat} {e e' e'' : Edge} (h : StopEdge n e e') (h' : StopEdge k e' e'')
    (hle : n ≤ k) : StopEdge n e e'' := by
  obtain rfl | ⟨hcall, hfar⟩ := h
  · exact h'.imp_right fun ⟨hcall, hfar⟩ => ⟨hcall, hle.trans hfar⟩
  · obtain rfl | ⟨-, hfar'⟩ := h'
    · exact .inr ⟨hcall, hfar⟩
    · exact .inr ⟨hcall, hle.trans hfar'⟩

theorem stopEdges_trans {n k : Nat} (h : List.Forall₂ (StopEdge n) es es') (hle : n ≤ k)
    {es'' : List Edge} (h' : List.Forall₂ (StopEdge k) es' es'') :
    List.Forall₂ (StopEdge n) es es'' := by
  induction h generalizing es'' with
  | nil =>
    cases h'
    exact .nil
  | cons he _ ih =>
    cases h' with
    | cons he' h' => exact .cons (he.trans he' hle) (ih h')

theorem Replaced.length_eq (h : Replaced free a b s i j es es')
    (hone : ∀ {e mid}, a.Splices s e mid → ∃ hop, mid.followed = [hop]) :
    es'.length = es.length := by
  induction h with
  | nil => rfl
  | keep _ ih => rw [List.length_cons, List.length_cons, ih]
  | splice hs _ ih =>
    obtain ⟨hop, hhop⟩ := hone hs
    rw [hhop, List.map_singleton, List.singleton_append, List.length_cons, List.length_cons, ih]
  | inline _ _ ih => rw [List.length_cons, List.length_cons, ih]

theorem Linear.grows (h : a.Linear) (g : Grows a b s st es') : b.Linear := by
  have cases {x : Nat} {xst : State} (hx : b.states[x]? = some xst) :
      (∃ old, a.states[x]? = some old ∧ old.kind = xst.kind ∧ old.edges = xst.edges) ∨
      xst.kind = .basic ∧ xst.edges.length = 1 := by
    by_cases hlt : x < a.states.size
    · obtain ⟨rfl, rfl⟩ | ⟨-, hold⟩ := g.cases hx hlt
      · exact .inl ⟨st, g.state, rfl, rfl⟩
      · exact .inl ⟨xst, hold, rfl, rfl⟩
    · obtain ⟨m, r, rfl, -⟩ := g.new hx (Nat.not_lt.1 hlt)
      exact .inr ⟨rfl, rfl⟩
  refine ⟨fun {x xst} hx hloud => ?_, fun {x xst} hx hkind => ?_, fun {x xst} hx hone => ?_⟩
  · obtain ⟨old, hold, -, hedges⟩ | ⟨-, hone⟩ := cases hx
    · rw [State.isSilent, ← hedges] at hloud
      exact hedges ▸ h.loud hold hloud
    · exact hone.le
  · obtain ⟨old, hold, hsame, hedges⟩ | ⟨-, hone⟩ := cases hx
    · exact hedges ▸ h.basic hold (hsame.trans hkind)
    · exact hone.le
  · obtain ⟨old, hold, hsame, hedges⟩ | ⟨hkind, -⟩ := cases hx
    · have hgreedy := h.greedy hold (by rw [hedges, hone])
      rwa [State.isNonGreedy, hsame] at hgreedy
    · rw [State.isNonGreedy, hkind]
      rfl

variable {x : Nat} {xst : State}

theorem Rewrites.matching (hr : Rewrites a b s st es' free i j) (hx : b.states[x]? = some xst)
    (hmem : e ∈ xst.followed) (hm : e.matchesOrCalls = true) :
    (∃ old, a.states[x]? = some old ∧ old.rule = xst.rule ∧ e ∈ old.followed) ∨
      a.states.size ≤ x ∧ e.isLabelled = true := by
  obtain ⟨old, hold, hrule, -, hmem | ⟨_, _, _, _, _, _, rfl⟩ | ⟨_, rfl, -⟩⟩ | ⟨hge, -, hl, -⟩ :=
    hr.followed_cases (.inl ⟨i, j, hr.replaced⟩) hx hmem
  · exact .inl ⟨old, hold, hrule, hmem⟩
  · cases hm
  · cases hm
  · exact .inr ⟨hge, hl⟩

namespace Tuned

variable (h : Tuned base a) (hr : Rewrites a b s st es' free i j)
include h hr

theorem rule_of_new (he : Secluded base) (hx : b.states[x]? = some xst) (hge : a.states.size ≤ x) :
    ∃ (y : Nat) (yst : State) (f : Edge) (r : Nat), xst.rule = some r ∧ a.states[y]? = some yst ∧
      yst.rule = some r ∧ f ∈ yst.followed ∧ f.matchesOrCalls = true := by
  obtain ⟨m, r, rfl, -, ⟨y, yst, hy, f, hf, hmatch, htarget⟩, hrule⟩ := hr.new hx hge
  obtain ⟨ρ, hρ, hon⟩ := h.ownerOf_onward he hy hf hmatch
  obtain hrule | ⟨hparser, -⟩ := hrule
  · exact ⟨y, yst, f, ρ, hrule.trans (htarget ▸ hon), hy, hρ, hf, hmatch⟩
  · rw [h.lexer] at hparser
    cases hparser

theorem lengths_rewrites (hx : b.states[x]? = some xst) :
    xst.followed.length = xst.edges.length := by
  by_cases hlt : x < a.states.size
  · obtain ⟨rfl, rfl⟩ | ⟨-, hold⟩ := hr.cases hx hlt
    · exact (hr.replaced.length_eq fun hs => h.exists_hop hs).trans (h.lengths hr.state)
    · exact h.lengths hold
  · obtain ⟨m, r, rfl, -⟩ := hr.new hx (Nat.not_lt.1 hlt)
    rfl

theorem stops_rewrites (hx : b.states[x]? = some xst) (hstop : xst.isRuleStop = true) :
    x < base.states.size ∧ List.Forall₂ (StopEdge base.states.size) xst.edges xst.followed := by
  by_cases hlt : x < a.states.size
  · obtain ⟨rfl, rfl⟩ | ⟨-, hold⟩ := hr.cases hx hlt
    · obtain ⟨hlt, hedges⟩ := h.stops hr.state hstop
      have hreplaced := hr.replaced
      rw [hr.stop hstop] at hreplaced
      exact ⟨hlt, stopEdges_trans hedges h.size hreplaced.stopEdges⟩
    · exact h.stops hold hstop
  · obtain ⟨m, r, rfl, -⟩ := hr.new hx (Nat.not_lt.1 hlt)
    cases hstop

theorem rewrites (he : Secluded base) : Tuned base b where
  toSameRaw := h.toSameRaw.rewrite hr.rewrite
  wired := hr.rewrite.wired h.wired
  lexer := by rw [hr.tables]; exact h.lexer
  size := h.size.trans hr.size
  sees hlt hsees := hr.sees_replaced hr.replaced (h.sees hlt hsees)
  calls hx hc := by
    obtain ⟨old, hold, -, hmem⟩ | ⟨-, hl⟩ := hr.matching hx hc rfl
    · exact h.calls hold hmem
    · cases hl
  followsRaw := hr.rewrite.followsRaw h.followsRaw
  keeps r := hr.rewrite.keepsTo h.lexer (h.keeps r)
  lengths := h.lengths_rewrites hr
  linear := h.linear.grows hr.toGrows
  stops := h.stops_rewrites hr
  owned {x xst e} hx hmem hm := by
    obtain ⟨old, hold, hrule, hmem⟩ | ⟨hge, -⟩ := hr.matching hx hmem hm
    · exact hrule ▸ h.owned hold hmem hm
    · obtain ⟨_, _, _, r, hrule, -⟩ := h.rule_of_new hr he hx hge
      rw [hrule]
      exact Option.some_ne_none r
  hollow {r} hollow x xst hx hrule e hmem := by
    cases hm : e.matchesOrCalls with
    | false => rfl
    | true =>
      obtain ⟨old, hold, hsame, hmem⟩ | ⟨hge, -⟩ := hr.matching hx hmem hm
      · exact hm ▸ h.hollow hollow hold (hsame.trans hrule) e hmem
      · obtain ⟨y, yst, f, r', hrule', hy, hyrule, hf, hfm⟩ := h.rule_of_new hr he hx hge
        obtain rfl := Option.some.inj (hrule.symm.trans hrule')
        exact (hfm.symm.trans (h.hollow hollow hy hyrule f hf))

end Tuned

end rewrite

section start

namespace Draft

variable (hd : net.Draft)
include hd

theorem linear_ensureOptimized (hl : net.Linear) :
    Linear { net with states := net.states.map State.ensureOptimized } where
  loud hs hloud := by
    obtain ⟨old, hold, rfl⟩ := hd.exists_of_ensureOptimized hs
    exact (hl.loud hold hloud :)
  basic hs hbasic := by
    obtain ⟨old, hold, rfl⟩ := hd.exists_of_ensureOptimized hs
    exact (hl.basic hold hbasic :)
  greedy hs hone := by
    obtain ⟨old, hold, rfl⟩ := hd.exists_of_ensureOptimized hs
    exact (hl.greedy hold hone :)

/-- A lexer whose rules keep to themselves, when its raw lists become the followed ones. -/
theorem tuned (hkind : net.kind = .lexer) (hl : net.Linear) (he : net.Secluded) :
    Tuned net { net with states := net.states.map State.ensureOptimized } where
  toSameRaw := hd.sameRaw_ensureOptimized
  wired := hd.toWired.ensureOptimized
  lexer := hkind
  size := Array.size_map.ge
  sees _ ho := ho.congr fun hs => ⟨_, hd.getElem?_ensureOptimized_of hs, rfl, rfl⟩
  calls hs hc := by
    obtain ⟨old, hold, rfl⟩ := hd.exists_of_ensureOptimized hs
    exact ⟨_, old, hold, hc⟩
  followsRaw hs he _ := by
    obtain ⟨old, hold, rfl⟩ := hd.exists_of_ensureOptimized hs
    exact he
  keeps r s t := fun ⟨st, hs, hns, e, hmem, hon⟩ ho => by
    obtain ⟨old, hold, rfl⟩ := hd.exists_of_ensureOptimized hs
    rw [ownerOf_ensureOptimized] at ho ⊢
    exact he.inside r ⟨old, hold, hns, e, hmem, hon⟩ ho
  lengths hs := by
    obtain ⟨old, hold, rfl⟩ := hd.exists_of_ensureOptimized hs
    rfl
  linear := hd.linear_ensureOptimized hl
  stops hs _ := by
    obtain ⟨old, hold, rfl⟩ := hd.exists_of_ensureOptimized hs
    exact ⟨lt_size hold, List.forall₂_same.2 fun _ _ => .inl rfl⟩
  owned hs hmem hm hnone := by
    obtain ⟨old, hold, rfl⟩ := hd.exists_of_ensureOptimized hs
    rw [he.outside hold hnone _ hmem] at hm
    cases hm
  hollow hr _ _ hs hrule e hmem := by
    obtain ⟨old, hold, rfl⟩ := hd.exists_of_ensureOptimized hs
    exact hr hold hrule e hmem

end Draft

end start

section sole

variable {raw : State} {found : List (Option Edge)}

/-- If the one way on from the start of a rule runs into a stop with one edge, nothing of the rule
matches or calls. -/
theorem Tuned.hollow_of_skips (h : Tuned base net) (hb : base.Wired) (he : Secluded base)
    (hret : Returning base) (hraw : base.states[s]? = some raw) (hc : .call c ∈ raw.edges) {z : Nat}
    {zst : State} (hz : net.states[z]? = some zst) (hzstop : zst.isRuleStop = true)
    (hone : zst.followed.length = 1) (hskips : net.Skips c.start z) :
    base.Hollow State.edges c.rule := by
  obtain ⟨stop, sst, mark, hstop, hsst, hmem⟩ := hret hraw hc
  have hstart := he.calls hraw hc
  obtain ⟨_, hst, -⟩ := hb.start hstart
  -- what is seen in the rule is seen where the way ends
  have ends {y : Nat} {o : Option Nat} (hy : base.Leads State.edges c.start y)
    (hsees : base.Sees State.edges y o) :
      o = some z := (hskips.sees (h.sees (lt_size hst) (hy.sees hsees))).of_stop hz hzstop
  obtain ⟨sst', hsst', hstop', hrule⟩ := hb.stop hstop
  obtain rfl := Option.some.inj (hsst.symm.trans hsst')
  obtain ⟨start', hstart', hlead⟩ := he.reached hsst hrule
  obtain rfl := Option.some.inj (hstart.symm.trans hstart')
  obtain rfl := Option.some.inj (ends hlead (.stop hsst hstop'))
  intro x xst hx hr e hmem'
  obtain ⟨start', hstart', hlead⟩ := he.reached hx hr
  obtain rfl := Option.some.inj (hstart.symm.trans hstart')
  cases hm : e.matchesOrCalls with
  | false => rfl
  | true =>
    cases hxstop : xst.isRuleStop with
    | false => cases ends hlead (.input hx hxstop hmem' hm)
    | true =>
      obtain rfl := Option.some.inj (ends hlead (.stop hx hxstop))
      obtain rfl := Option.some.inj (hx.symm.trans hsst)
      obtain ⟨l, hl⟩ := h.old hx
      obtain rfl := Option.some.inj (hz.symm.trans hl)
      obtain ⟨f, hf⟩ := List.length_eq_one_iff.1 ((h.lengths hz).symm.trans hone)
      have hf : xst.edges = [f] := hf
      rw [hf, List.mem_singleton] at hmem hmem'
      rw [hmem', ← hmem] at hm
      cases hm

theorem Tuned.sole (h : Tuned base net) (hb : base.Wired) (he : Secluded base)
    (hret : Returning base) (hraw : base.states[s]? = some raw) (hc : .call c ∈ raw.edges)
    (hm : net.soleMatch c.rule c.start = .ok (some m)) :
    ∃ stop, base.ruleStops[c.rule]? = some stop ∧ net.Sole stop c.start m := by
  obtain ⟨stop, sst, -, hstop, -⟩ := hret hraw hc
  have hstart := he.calls hraw hc
  obtain ⟨middle, after, _, o, hmiddle, hf, hl, hafter, hfa, hsil, heq⟩ := of_soleMatch hm
  have hstops : net.ruleStops = base.ruleStops := by rw [h.tables]
  rw [hstops] at heq
  obtain rfl := Option.some.inj (hstop.symm.trans heq)
  refine ⟨stop, hstop, ?_⟩
  obtain ⟨-, hcall, hmatch⟩ := Edge.of_isLabelled hl
  -- behind a stop, the match would be one of another rule, from which an edge enters the stop of
  -- this one
  have beyond {z : Nat} {zst : State} {t : Nat} (ht : net.states[t]? = some middle)
    (hz : net.states[z]? = some zst)
      (hzstop : zst.isRuleStop = true) (hone : zst.followed.length = 1)
          (hskips : net.Skips c.start z) : False := by
    have hollow : base.Hollow State.edges c.rule :=
      h.hollow_of_skips hb he hret hraw hc hz hzstop hone hskips
    have hmem : m ∈ middle.followed := by simp [hf]
    obtain ⟨ρ, hρ, hon⟩ := h.ownerOf_onward he ht hmem hmatch
    have hne : c.rule ≠ ρ := fun heq => by
      rw [h.hollow hollow ht (heq ▸ hρ) m hmem] at hmatch
      cases hmatch
    rw [Edge.onward_of_call?_eq_none hcall, ownerOf_eq hafter] at hon
    obtain ⟨sst, hsst, -, hrule⟩ := hb.stop hstop
    have howner : net.ownerOf stop = some c.rule :=
      (h.ownerOf_eq (lt_size hsst)).trans ((ownerOf_eq hsst).trans hrule)
    have hlast : .epsilon stop o ∈ after.followed := by simp [hfa]
    cases hastop : after.isRuleStop with
    | false =>
      have hin := h.keeps ρ ⟨after, hafter, hastop, _, hlast, rfl⟩ ((ownerOf_eq hafter).trans hon)
      exact hne (Option.some.inj (howner.symm.trans hin))
    | true =>
      obtain ⟨hlt, hedges⟩ := h.stops hafter hastop
      obtain ⟨old, hold, hsame, hkind, holdedges⟩ := h.exists_old hlt hafter
      obtain ⟨f, hfmem, hfe | ⟨-, hfar⟩⟩ := exists_of_forall₂_right hedges hlast
      · have hin :=
          he.rule_of_epsilon hb hstop hollow hold (hkind.trans hastop) (holdedges ▸ hfe ▸ hfmem)
        exact hne (Option.some.inj ((hin.symm.trans hsame).trans hon))
      · exact absurd hfar (Nat.not_le.2 (lt_size hsst))
  obtain ⟨t, ht, hskips | ⟨z, zst, hz, hzstop, hone, hskips⟩⟩ := skips_of_skipEpsilons hmiddle
  · cases hns : middle.isRuleStop with
    | false =>
      exact SeesAll.sole h.sees hb he.reached hstart hstop ht hns hskips hf hl hafter hfa hsil
    | true => exact (beyond ht ht hns (by rw [hf]; rfl) hskips).elim
  · exact (beyond ht hz hzstop hone hskips).elim

/-- The calls of `base` that are inlined call rules that have a sole match in `net`. -/
def SolesIn (base net : Network) (found : List (Option Edge)) : Prop :=
  ∀ {s : Nat} {raw : State} {c : Call} {m : Edge}, base.states[s]? = some raw →
    .call c ∈ raw.edges →
    base.InlinedBy found c m → ∃ stop, base.ruleStops[c.rule]? = some stop ∧ net.Sole stop c.start m

theorem Tuned.solesIn (h : Tuned base net) (hb : base.Wired) (he : Secluded base)
    (hret : Returning base) (hfound : net.soleMatches = .ok found) : SolesIn base net found := by
  intro s raw c m hraw hc hm
  obtain ⟨stop, -, -, hstop, -⟩ := hret hraw hc
  have hstart := he.calls hraw hc
  obtain ⟨sst, hsst, -⟩ := hb.start hstart
  have hrule : sst.rule.getD c.rule = c.rule := by
    cases ho : sst.rule with
    | none => rfl
    | some r => exact he.rule_of_start hb hstart hstop ((ownerOf_eq hsst).trans ho)
  simp only [InlinedBy, inlineOf, hsst, hrule, Option.bind_eq_bind, Option.bind_some,
    Option.bind_eq_some_iff, Option.pure_def, Option.some.injEq, Prod.mk.injEq, true_and] at hm
  obtain ⟨_, hm, m, rfl, rfl⟩ := hm
  obtain ⟨start, hstart', hmatch⟩ := soleMatch_of_soleMatches hfound hm
  rw [show net.ruleStarts = base.ruleStarts by rw [h.tables], hstart] at hstart'
  obtain rfl := Option.some.inj hstart'
  exact h.sole hb he hret hraw hc hmatch

theorem Hop.grows (h : a.Hop i j) (g : Grows a b s st es') (hc : .call c ∈ st.followed) :
    b.Hop i j := by
  obtain ⟨old, o, hi, hns, hsil, hf⟩ := h
  refine ⟨old, o, g.kept hi fun heq => ?_, hns, hsil, hf⟩
  obtain rfl := Option.some.inj (hi.symm.trans (heq ▸ g.state))
  rw [hf, List.mem_singleton] at hc
  cases hc

theorem Sole.grows {stop start : Nat} (h : a.Sole stop start m) (g : Grows a b s st es')
    (hc : .call c ∈ st.followed) : b.Sole stop start m := by
  obtain ⟨hl, ⟨t, old, hskips, ht, hns, hf⟩, hends⟩ := h
  have hskips : b.Skips start t :=
    Relation.ReflTransGen.mono (fun _ _ hop => Hop.grows hop g hc) _ _ hskips
  refine ⟨hl, ⟨t, old, hskips, g.kept ht fun heq => ?_, hns, hf⟩,
    hends.imp_right fun hop => Hop.grows hop g hc⟩
  obtain rfl := Option.some.inj (ht.symm.trans (heq ▸ g.state))
  rw [hf, List.mem_singleton] at hc
  rw [← hc] at hl
  cases hl

end sole

end Network

end GrammarWalk
