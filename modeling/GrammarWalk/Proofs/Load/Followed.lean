import GrammarWalk.Proofs.Load.Structure
import GrammarWalk.Proofs.Network.Path

/-! How the lists that a loaded network follows compare with the raw ones: they match nothing new, a
state that has one match follows it, and those of a lexer stay in a rule if the raw lists do. -/

namespace GrammarWalk

namespace Network

variable {net net' : Network} {free : Call → Edge → Prop} {s t r : Nat} {st : State} {e : Edge}

/-- A followed edge that takes input is a raw edge of its state. -/
def MatchesRaw (net : Network) : Prop :=
  ∀ {s : Nat} {st : State} {e : Edge}, net.states[s]? = some st → e ∈ st.followed →
    e.isSilent = false →
    e ∈ st.edges

/-- A followed edge that is no plain epsilon edge is a raw edge of its state. -/
def FollowsRaw (net : Network) : Prop :=
  ∀ {s : Nat} {st : State} {e : Edge}, net.states[s]? = some st → e ∈ st.followed →
    e.isPlain = false → e ∈ st.edges

/-- Where the only raw edge of a state takes input, it is the only one that is followed. -/
def FollowsLone (net : Network) : Prop :=
  ∀ {s : Nat} {st : State} {e : Edge}, net.states[s]? = some st → st.edges = [e] →
    e.isSilent = false →
    st.followed = [e]

theorem lt_size_of_ownerOf (h : net.ownerOf s = some r) : s < net.states.size := by
  obtain ⟨st, hs, -⟩ := Option.bind_eq_some_iff.1 h
  exact lt_size hs

section rewrite

theorem FollowsRaw.matchesRaw (h : net.FollowsRaw) : net.MatchesRaw := fun {_ _ e} hs he hloud =>
  h hs he (by cases e <;> first | rfl | cases hloud)

theorem Rewrite.followsRaw (h : Rewrite free net net') (hf : net.FollowsRaw) : net'.FollowsRaw := by
  obtain ⟨x, xst, es', g, hnew⟩ := h.grows
  intro s st e hs he hplain
  by_cases hlt : s < net.states.size
  · rcases g.cases hs hlt with ⟨rfl, rfl⟩ | ⟨-, hold⟩
    · rcases mem_rewritten hnew he with he | ⟨_, _, _, _, _, _, rfl⟩ | ⟨_, rfl, -⟩
      · have he : e ∈ xst.followed := he
        have hold : e ∈ xst.edges := hf g.state he hplain
        exact hold
      · cases hplain
      · cases hplain
    · exact hf hold he hplain
  · obtain ⟨m, o, rfl, -⟩ := g.new hs (Nat.not_lt.1 hlt)
    exact he

/-- One edge that calls nothing stays, or makes room for those of the state that it leads to. -/
theorem Replaced.of_single {i j : Nat} {es' : List Edge} (h : Replaced free net net' s i j [e] es')
    (hcall : e.call? = none) :
    es' = [e] ∧ i + j = 0 ∨ ∃ m, net.Splices s e m ∧ es' = m.followed.map fun hop =>
      .plain hop.target := by
  cases h with
  | keep h =>
    cases h
    exact .inl ⟨rfl, rfl⟩
  | splice hs h =>
    cases h
    exact .inr ⟨_, hs, List.append_nil _⟩
  | inline => cases hcall

theorem Replaced.of_lone {i j : Nat} {es' : List Edge} (h : Replaced free net net' s i j [e] es')
    (hloud : e.isSilent = false) : es' = [e] ∧ i + j = 0 := by
  have hcall : e.call? = none := by cases e <;> first | rfl | cases hloud
  obtain h | ⟨m, hs, -⟩ := h.of_single hcall
  · exact h
  · rw [(Edge.isSilent_of_isPlain hs.plain).1] at hloud
    cases hloud

theorem Grows.followsLone {es' : List Edge} (g : Grows net net' s st es') (hl : net.FollowsLone)
    (hst : ∀ e, st.followed = [e] → e.isSilent = true) : net'.FollowsLone := by
  intro x xst e hx he hloud
  by_cases hlt : x < net.states.size
  · rcases g.cases hx hlt with ⟨rfl, rfl⟩ | ⟨-, hold⟩
    · have hsilent := hst e (hl g.state he hloud)
      rw [hloud] at hsilent
      cases hsilent
    · exact hl hold he hloud
  · obtain ⟨m, o, rfl, -⟩ := g.new hx (Nat.not_lt.1 hlt)
    exact he

theorem Rewrite.followsLone (h : Rewrite free net net') (hl : net.FollowsLone) :
    net'.FollowsLone := by
  cases h with
  | replace g hr hpos =>
    refine g.followsLone hl fun e he => ?_
    cases hloud : e.isSilent with
    | true => rfl
    | false =>
      rw [he] at hr
      exact absurd (hr.of_lone hloud).2 (Nat.ne_of_gt hpos)
  | merge g hm =>
    refine g.followsLone hl fun e he => ?_
    have := hm.one_lt_length
    simp [he] at this

/-- The followed lists of a lexer stay in a rule: what stands for an edge stays where the edge
does. -/
theorem Rewrite.keepsTo (h : Rewrite free net net') (hkind : net.kind = .lexer)
    (hk : net.KeepsTo State.followed (some r)) : net'.KeepsTo State.followed (some r) := by
  obtain ⟨x, xst, es', g, hnew⟩ := h.grows
  have lift {t : Nat} (ht : net.ownerOf t = some r) : net'.ownerOf t = some r :=
    (g.ownerOf_eq (Array.getElem?_eq_getElem (lt_size_of_ownerOf ht))).trans ht
  rintro s t ⟨st, hs, hns, e, he, rfl⟩ ho
  by_cases hlt : s < net.states.size
  · have howner : net.ownerOf s = some r :=
      (g.ownerOf_eq (Array.getElem?_eq_getElem hlt)).symm.trans ho
    rcases g.cases hs hlt with ⟨rfl, rfl⟩ | ⟨-, hold⟩
    · have old {f : Edge} (hf : f ∈ xst.followed) : net.ownerOf f.onward = some r :=
        hk ⟨xst, g.state, hns, f, hf, rfl⟩ howner
      rcases hnew with ⟨_, _, hr⟩ | ⟨fresh, m, hm⟩
      · rcases hr.mem_of he with he | ⟨f, hf, mid, hmid, hop, hhop, rfl⟩ | ⟨c, fresh,
          m, hc, hi, rfl⟩
        · exact lift (old he)
        · have hin : net.ownerOf f.target = some r := Edge.onward_of_isPlain hmid.plain ▸ old hf
          have hhopped := hk ⟨mid, hmid.state, hmid.not_stop, hop, hhop, rfl⟩ hin
          exact lift (Edge.onward_of_isPlain (hmid.hops hop hhop) ▸ hhopped)
        · exact (ownerOf_eq hi.state).trans (old hc)
      · rcases hm.mem_of he with rfl | he
        · exact (ownerOf_eq hm.state).trans howner
        · exact lift (old he)
    · exact lift (hk ⟨st, hold, hns, e, he, rfl⟩ howner)
  · obtain ⟨m, o, rfl, hm, -, ho'⟩ := g.new hs (Nat.not_lt.1 hlt)
    obtain rfl := List.mem_singleton.1 he
    obtain rfl : o = some r := (ownerOf_eq hs).symm.trans ho
    rcases ho' with ho' | ⟨hparser, -⟩
    · exact lift (Edge.onward_of_call?_eq_none (Edge.of_isLabelled hm).2.1 ▸ ho'.symm)
    · rw [hkind] at hparser
      cases hparser

/-- What the followed lists of a network keep of the raw lists of the network that it came from. -/
structure TrueTo (base net : Network) : Prop where
  kind : net.kind = base.kind
  followsRaw : net.FollowsRaw
  followsLone : net.FollowsLone
  keeps : base.kind = .lexer → ∀ r, base.KeepsTo State.edges (some r) →
    net.KeepsTo State.followed (some r)

theorem TrueTo.rewrite {base : Network} (h : TrueTo base net) (hr : Rewrite free net net') :
    TrueTo base net' where
  kind := by rw [hr.tables, h.kind]
  followsRaw := hr.followsRaw h.followsRaw
  followsLone := hr.followsLone h.followsLone
  keeps hlexer r hk := hr.keepsTo (h.kind.trans hlexer) (h.keeps hlexer r hk)

theorem Draft.trueTo_ensureOptimized (hd : net.Draft) :
    TrueTo net { net with states := net.states.map State.ensureOptimized } where
  kind := rfl
  followsRaw {s st e} hs he _ := by
    obtain ⟨old, hold, rfl⟩ := hd.exists_of_ensureOptimized hs
    exact he
  followsLone {s st e} hs he _ := by
    obtain ⟨old, hold, rfl⟩ := hd.exists_of_ensureOptimized hs
    exact he
  keeps _ r hk := by
    rintro s t ⟨st, hs, hns, e, he, rfl⟩ ho
    obtain ⟨old, hold, rfl⟩ := hd.exists_of_ensureOptimized hs
    rw [ownerOf_ensureOptimized] at ho ⊢
    exact hk ⟨old, hold, hns, e, he, rfl⟩ ho

theorem Draft.trueTo_optimize (hd : net.Draft) (hr : net.InRange) {changes : Changes}
    (hn : net.optimize = .ok (changes, net')) : TrueTo net net' :=
  optimize_of_rewrites hr hd.trueTo_ensureOptimized TrueTo.rewrite hn

end rewrite

section judged

theorem Judged.onward_eq {e e' : Edge} (h : Judged e e') : e'.onward = e.onward := by
  obtain rfl | ⟨c, tail, optimizedTail, rfl, rfl⟩ := h <;> rfl

theorem Judged.eq_of_not_isSilent {e e' : Edge} (h : Judged e e') (hloud : e'.isSilent = false) :
    e = e' := by
  obtain rfl | ⟨c, tail, optimizedTail, rfl, rfl⟩ := h
  · rfl
  · cases hloud

theorem single_iff_of_judged {es es' : List Edge} (h : List.Forall₂ Judged es es')
    (hcall : e.call? = none) : es' = [e] ↔ es = [e] := by
  constructor
  · rintro rfl
    obtain ⟨e₀, rest, hj, hnil, rfl⟩ := List.forall₂_cons_right_iff.1 h
    rw [List.forall₂_nil_right_iff.1 hnil]
    obtain rfl | ⟨c, _, _, -, rfl⟩ := hj
    · rfl
    · cases hcall
  · rintro rfl
    obtain ⟨e₀, rest, hj, hnil, rfl⟩ := List.forall₂_cons_left_iff.1 h
    rw [List.forall₂_nil_left_iff.1 hnil]
    obtain rfl | ⟨c, _, _, rfl, -⟩ := hj
    · rfl
    · cases hcall

theorem JudgedState.followed {st st' : State} (h : JudgedState st st') :
    List.Forall₂ Judged st.followed st'.followed := by
  have ho := h.optimized
  rw [State.followed, State.followed]
  generalize st.optimized = o at ho
  generalize st'.optimized = o' at ho
  cases ho with
  | none => exact h.edges
  | some hes => exact hes

theorem MatchesRaw.withTailCalls (h : net.MatchesRaw) (hn : net.withTailCalls = .ok net') :
    net'.MatchesRaw := by
  intro s st' e' hs he hloud
  obtain ⟨st, hst, hj⟩ := judged_of_getElem? hn hs
  obtain ⟨e, hfollowed, hje⟩ := exists_of_forall₂_right hj.followed he
  obtain rfl := hje.eq_of_not_isSilent hloud
  obtain ⟨e', he', hje⟩ := exists_of_forall₂_left hj.edges (h hst hfollowed hloud)
  rcases hje with rfl | ⟨c, _, _, rfl, -⟩
  · exact he'
  · cases hloud

theorem FollowsLone.withTailCalls (h : net.FollowsLone) (hn : net.withTailCalls = .ok net') :
    net'.FollowsLone := by
  intro s st' e hs he hloud
  obtain ⟨st, hst, hj⟩ := judged_of_getElem? hn hs
  have hcall : e.call? = none := by
    cases e <;> first | rfl | cases hloud
  exact (single_iff_of_judged hj.followed hcall).2
    (h hst ((single_iff_of_judged hj.edges hcall).1 he) hloud)

theorem ownerOf_withTailCalls (hn : net.withTailCalls = .ok net') :
    net'.ownerOf s = net.ownerOf s := by
  cases hs : net.states[s]? with
  | some st =>
    obtain ⟨st', hs', hj⟩ := getElem?_withTailCalls hn hs
    rw [ownerOf_eq hs, ownerOf_eq hs', hj.rest]
  | none =>
    have hs' : net'.states[s]? = none := by
      rw [Array.getElem?_eq_none_iff] at hs ⊢
      rwa [size_withTailCalls hn]
    rw [ownerOf, ownerOf, hs, hs']

theorem keepsTo_withTailCalls_iff {view : State → List Edge} (hn : net.withTailCalls = .ok net')
    (hview : ∀ {st st' : State}, JudgedState st st' → List.Forall₂ Judged (view st) (view st')) :
    net'.KeepsTo view (some r) ↔ net.KeepsTo view (some r) := by
  have honward {s t : Nat} : net'.Onward view s t ↔ net.Onward view s t := by
    constructor
    · rintro ⟨st', hs, hns, e', he, rfl⟩
      obtain ⟨st, hst, hj⟩ := judged_of_getElem? hn hs
      obtain ⟨e, he, hje⟩ := exists_of_forall₂_right (hview hj) he
      rw [State.isRuleStop, hj.rest] at hns
      exact ⟨st, hst, hns, e, he, hje.onward_eq.symm⟩
    · rintro ⟨st, hst, hns, e, he, rfl⟩
      obtain ⟨st', hs, hj⟩ := getElem?_withTailCalls hn hst
      obtain ⟨e', he', hje⟩ := exists_of_forall₂_left (hview hj) he
      exact ⟨st', hs, by rw [State.isRuleStop, hj.rest]; exact hns, e', he', hje.onward_eq⟩
  simp only [KeepsTo, honward, ownerOf_withTailCalls hn]

end judged

/-- Where the raw lists of a network stay in a rule, those of the network it came from did. -/
theorem SameRaw.keepsTo (h : SameRaw net net') (hw : net.Wired)
    (hk : net'.KeepsTo State.edges (some r)) : net.KeepsTo State.edges (some r) := by
  have same {t : Nat} (ht : t < net.states.size) : net'.ownerOf t = net.ownerOf t := by
    obtain ⟨l, hl⟩ := h.old (Array.getElem?_eq_getElem ht)
    rw [ownerOf_eq hl, ownerOf_eq (Array.getElem?_eq_getElem ht)]
  rintro s t ⟨st, hs, hns, e, he, rfl⟩ ho
  obtain ⟨l, hl⟩ := h.old hs
  rw [← same ((hw.within hs).edges e he).onward_lt]
  exact hk ⟨_, hl, hns, e, he, rfl⟩ ((same (lt_size hs)).trans ho)

end Network

/-- The lists that a loaded network follows match nothing that the raw lists do not match, and keep
a lone match; and those of a lexer stay in a rule if the raw lists do. -/
theorem loadWords_followed {words : List Wire.Word} {options : LoadOptions} {net : Network}
    (hn : loadWords words options = .ok net) :
    net.MatchesRaw ∧ net.FollowsLone ∧ (net.kind = .lexer → ∀ r,
      net.KeepsTo State.edges (some r) → net.KeepsTo State.followed (some r)) := by
  obtain ⟨decoded, bypassed, opt, hdecode, hbypass, hopt, -, htails⟩ := loadWords_eq_ok hn
  obtain ⟨hd, hsize⟩ := bypassed_keeps hdecode hbypass
  have hkind : net.kind = opt.kind := by rw [(Network.withTailCalls_eq_ok htails).1]
  have hfollowed {r : Nat} :=
    Network.keepsTo_withTailCalls_iff (r := r) htails Network.JudgedState.followed
  have hedges {r : Nat} :=
    Network.keepsTo_withTailCalls_iff (r := r) htails Network.JudgedState.edges
  obtain ⟨-, rfl⟩ | ⟨-, changes, ho⟩ := hopt
  · have hsame {s t : Nat} : opt.Onward State.followed s t ↔ opt.Onward State.edges s t :=
      exists_congr fun st => and_congr_right fun hs => by rw [hd.followed_eq hs]
    refine ⟨Network.MatchesRaw.withTailCalls (fun hs he _ => hd.followed_eq hs ▸ he) htails,
      Network.FollowsLone.withTailCalls (fun hs he _ => (hd.followed_eq hs).trans he) htails,
      fun _ r hk => ?_⟩
    exact hfollowed.2 fun hon => hedges.1 hk (hsame.1 hon)
  · have hr := hd.toWired.inRange hsize.ge
    have htrue := hd.trueTo_optimize hr ho
    have same := Network.SameRaw.optimize hr ho
    refine ⟨Network.MatchesRaw.withTailCalls (Network.FollowsRaw.matchesRaw htrue.followsRaw)
      htails, Network.FollowsLone.withTailCalls htrue.followsLone htails, fun hlexer r hraw =>
      hfollowed.2 (htrue.keeps ?_ r ?_)⟩
    · rw [← hlexer, hkind, htrue.kind]
    · exact same.keepsTo hd.toWired (hedges.1 hraw)

end GrammarWalk
