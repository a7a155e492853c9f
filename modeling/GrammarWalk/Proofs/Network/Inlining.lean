import GrammarWalk.Proofs.Network.Language

/-! What runs cost after an optimization. A pass inlines every call of a rule with a sole match that
is followed anywhere, and calls are never followed anew. So a call that is still followed at the end
was inlined nowhere, and if only such calls cost anything, then runs cost over the followed lists
what they cost over the raw ones. -/

namespace GrammarWalk.Network

variable {base net net' : Network} {free : Call → Edge → Prop} {sole : List (Option Edge)} {s : Nat}
  {st st' : State}
  {c : Call} {cost : Call → Nat} {lo hi : Int} {changes : Changes}

/-- Some state still follows a call that leads the same way as `c`. -/
def Retains (net : Network) (c : Call) : Prop :=
  ∃ (s : Nat) (st : State) (c' : Call), net.states[s]? = some st ∧ .call c' ∈ st.followed ∧
    c'.start = c.start ∧ c'.rule = c.rule ∧ c'.follow = c.follow

/-- Only calls that are still followed cost anything. -/
def Charges (net : Network) (cost : Call → Nat) : Prop := ∀ c, cost c ≠ 0 → net.Retains c

/-- A state of a rule follows no call that has a match to be inlined. -/
def Cleared (net : Network) (sole : List (Option Edge)) (s : Nat) : Prop :=
  ∀ (st : State) (c : Call), net.states[s]? = some st → st.rule ≠ none → .call c ∈ st.followed →
    net.inlineOf sole (.call c) = none

theorem Rewrite.sameRaw (h : Rewrite free net net') : SameRaw net net' :=
  SameRaw.rewrite ⟨fun {_ st} hs => ⟨st.optimized, hs⟩, rfl⟩ h

theorem Rewrite.call_of_mem (h : Rewrite free net net') (hs : net'.states[s]? = some st')
    (hc : .call c ∈ st'.followed) :
    ∃ st, net.states[s]? = some st ∧ st.rule = st'.rule ∧ .call c ∈ st.followed := by
  obtain ⟨x, xst, es', g, hnew⟩ := h.grows
  rcases g.followed_cases hnew hs hc with ⟨old, hold, hrule, -,
    hc | ⟨_, _, _, _, _, _, heq⟩ | ⟨_, heq, -⟩⟩ | ⟨-, -, hl, -⟩
  · exact ⟨old, hold, hrule, hc⟩
  · cases heq
  · cases heq
  · cases hl

theorem InlinedBy.of_same {c' : Call} {m : Edge} (h : net.InlinedBy sole c m)
    (hstart : c'.start = c.start) (hrule : c'.rule = c.rule) : net.InlinedBy sole c' m := by
  simp only [InlinedBy, inlineOf, Option.bind_eq_bind, Option.bind_eq_some_iff, Option.pure_def,
    Option.some.injEq, Prod.mk.injEq, true_and] at h ⊢
  rw [hstart, hrule]
  exact h

theorem Rewrite.retains (h : Rewrite free net net') (hc : net'.Retains c) : net.Retains c := by
  obtain ⟨s, st', c', hs, hc', hsame⟩ := hc
  obtain ⟨st, hst, -, hmem⟩ := h.call_of_mem hs hc'
  exact ⟨s, st, c', hst, hmem, hsame⟩

theorem Cleared.rewrite (h : net.Cleared sole s) (hrange : net.InRange)
    (hr : Rewrite free net net') : net'.Cleared sole s := by
  intro st' c hs hrule hc
  obtain ⟨st, hst, hsame, hmem⟩ := hr.call_of_mem hs hc
  rw [hr.sameRaw.inlineOf_eq (hrange.target_lt hst hmem)]
  exact h st c hst (hsame ▸ hrule) hmem

theorem returns_inlineState_cleared {count : Nat} (h : net.Ready)
    (hsole : ∀ m, some m ∈ sole → m.isLabelled = true) (hs : s < net.states.size) :
    Returns (inlineState sole count net s) fun b => b.2.Cleared sole s := by
  unfold inlineState
  refine (returns_state hs).bind fun st hst => ?_
  split
  · rename_i hnone
    simp only [Bool.or_eq_true, Option.isNone_iff_eq_none, List.all_eq_true] at hnone
    refine returns_pure fun st' c hst' hrule hc => ?_
    obtain rfl := Option.some.inj (hst.symm.trans hst')
    exact hnone.resolve_left hrule _ hc
  · refine (returns_inlineEdges h hst hsole (fun e he => he) (.refl net)).bind fun r hr =>
      returns_pure ?_
    intro st' c hst' _ hc
    have hsame : SameRaw net (r.2.2.setFollowed s r.2.1) :=
      ⟨fun hs => (hr.appends.grows hst).old hs, (hr.appends.grows hst).tables⟩
    obtain rfl := Option.some.inj (hst'.symm.trans (hr.appends.grows hst).changed)
    have hleft : net.inlineOf sole (.call c) = none := (hr.left _ hc).resolve_left nofun
    rw [hsame.inlineOf_eq ?_, hleft]
    have hreplaced : Replaced (net.InlinedBy sole) net r.2.2 s r.1 0 st.followed r.2.1 :=
      hr.replaced fun _ ht => ht
    obtain hold | ⟨_, _, _, _, _, _, heq⟩ | ⟨_, _, _, _, _, heq⟩ := hreplaced.mem_of hc
    · exact h.target_lt hst hold
    · cases heq
    · cases heq

theorem cleared_of_inlineCalls {done : Nat × Network} (h : net.Ready)
    (hsole : net.soleMatches = .ok sole) (hn : net.inlineCalls = .ok done) :
    done.2.Ready ∧ ∀ s < net.states.size, done.2.Cleared sole s := by
  simp only [inlineCalls, hsole, bind_eq_ok, Except.ok.injEq, exists_eq_left'] at hn
  have hlabelled := (returns_soleMatches h).of_eq_ok hsole
  split at hn
  · rename_i hnone
    obtain rfl := pure_eq_ok.1 hn
    refine ⟨h, fun s _ st c hst _ hc => Option.eq_none_iff_forall_ne_some.2 fun ⟨c', m⟩ hm => ?_⟩
    have hnone := List.all_eq_true.1 hnone _ (inlineOf_eq_some hm).2
    cases hnone
  · have hkeep :=
      foldlM_range_keeps (P := fun k (b : Nat × Network) => b.2.Ready ∧ net.states.size ≤
        b.2.states.size ∧ ∀ s < k, b.2.Cleared sole s) (fun k hk b b' hb hstep => ?_)
      ⟨h, Nat.le_refl _, nofun⟩ hn
    · exact ⟨hkeep.1, hkeep.2.2⟩
    · obtain ⟨hready, hsize, hclear⟩ := hb
      have hlt := Nat.lt_of_lt_of_le hk hsize
      have hdone := (returns_inlineState_cleared hready hlabelled hlt).of_eq_ok hstep
      have grown {free : Call → Edge → Prop} (hr : Rewrite free b.2 b'.2) : b'.2.Ready ∧
          net.states.size ≤ b'.2.states.size ∧ ∀ s < k, b'.2.Cleared sole s :=
        ⟨hr.ready hready, Nat.le_trans hsize hr.size_le,
          fun s hs => (hclear s hs).rewrite hready.toInRange hr⟩
      have hkept : b'.2.Ready ∧ net.states.size ≤ b'.2.states.size ∧
          ∀ s < k, b'.2.Cleared sole s := by
        obtain heq | ⟨-, hr⟩ := (returns_inlineState hready hlabelled hlt).of_eq_ok hstep
        · exact heq ▸ ⟨hready, hsize, hclear⟩
        · exact grown hr.rewrite
      refine ⟨hkept.1, hkept.2.1, fun s hs => ?_⟩
      obtain hs | rfl := Nat.lt_succ_iff_lt_or_eq.1 hs
      · exact hkept.2.2 s hs
      · exact hdone

theorem cleared_of_optimizeOnce (h : net.Ready) (hn : net.optimizeOnce = .ok (changes, net'))
    (hsole : net.soleMatches = .ok sole) : ∀ s < net.states.size, net'.Cleared sole s := by
  simp only [optimizeOnce, bind_eq_ok, pure_eq_ok, Prod.exists, Prod.mk.injEq] at hn
  obtain ⟨i, inlined, hinline, j, spliced, hsplice, k, merged, hmerge, -, rfl⟩ := hn
  obtain ⟨hready, hclear⟩ := cleared_of_inlineCalls h hsole hinline
  have keep {a b : Network} (ha : a.Ready ∧ ∀ s < net.states.size, a.Cleared sole s)
    (hr : Rewrite (fun _ _ => False) a b) :
      b.Ready ∧ ∀ s < net.states.size, b.Cleared sole s :=
    ⟨hr.ready ha.1, fun s hs => (ha.2 s hs).rewrite ha.1.toInRange hr⟩
  have hspliced := ((returns_spliceEpsilons hready).of_eq_ok hsplice).keeps ⟨hready, hclear⟩
    fun ha hr => keep ha hr.rewrite
  exact (((returns_mergeMatches hspliced.1).of_eq_ok hmerge).keeps hspliced keep).2

/-- Over an optimized network, runs cost what they cost over the raw edges it came from, if a call
costs something only where it is still followed. -/
theorem faithful_optimize (hset : net.SetApart) (hd : net.Draft)
    (hsize : net.ruleStops.size = net.ruleStarts.size)
    (howned : ∀ st ∈ net.states.toList, st.rule ≠ none) (hn : net.optimize = .ok (changes, net'))
    (hcost : net'.Charges cost) : Faithful cost lo hi net net' := by
  have hw := hd.toWired
  let AtOld (a : Network) : Prop :=
    ∀ (s : Nat) (st : State) (c : Call), a.states[s]? = some st → .call c ∈ st.followed →
      s < net.states.size
  refine (optimize_of_rounds (P := fun a => a.Ready ∧ AtOld a ∧ ∀ {cost}, a.Charges cost →
    Faithful cost lo hi net a) ⟨(hw.inRange hsize.ge).ensureOptimized, ?_,
    fun _ => hset.faithful_self hd hsize⟩ (fun {a b done} ha hround => ?_) hn).2.2 hcost
  · intro s st c hs _
    simpa using lt_size hs
  · obtain ⟨hready, hold, hfaithful⟩ := ha
    obtain ⟨sole, inlined, spliced, merged, hpasses, heq⟩ :=
      (returns_optimizeOnce hready).of_eq_ok hround
    obtain ⟨-, rfl⟩ := Prod.mk.inj heq
    have hafter : merged.2.Ready ∧ AtOld merged.2 ∧ ∀ c, merged.2.Retains c → a.Retains c := by
      refine hpasses.keeps (P := fun b => b.Ready ∧ AtOld b ∧ ∀ c, b.Retains c → a.Retains c)
        ⟨hready, hold, fun _ h => h⟩
        fun {free x y} hx hr => ⟨hr.ready hx.1, fun s st c hs hc => ?_,
          fun c hc => hx.2.2 c (hr.retains hc)⟩
      obtain ⟨st', hst', -, hc'⟩ := hr.call_of_mem hs hc
      exact hx.2.1 s st' c hst' hc'
    refine ⟨hafter.1, hafter.2.1, fun {cost} hcharges => ?_⟩
    refine (hfaithful fun c hc => hafter.2.2 c (hcharges c hc)).optimizeOnce hset hw hsize
      (fun {sole c m} hsole hm => ?_) hround
    -- a call that the round inlines would still be followed after it if it cost anything
    by_contra hc
    obtain ⟨s, st, c', hs, hc', hstart, hrule, -⟩ := hcharges c hc
    have hzero : Faithful (fun _ => 0) lo hi net a := hfaithful fun _ h => (h rfl).elim
    have hext := (hzero.optimizeOnce hset hw hsize (fun _ _ => rfl) hround).toExtends
    have hlt := hafter.2.1 s st c' hs hc'
    obtain ⟨l, hl⟩ := hext.old (Array.getElem?_eq_getElem hlt)
    obtain rfl := Option.some.inj (hs.symm.trans hl)
    have hclear :=
      cleared_of_optimizeOnce hready hround hsole s (Nat.lt_of_lt_of_le hlt hzero.size) _ c' hs
      (howned net.states[s] (Array.getElem_mem_toList hlt)) hc'
    obtain ⟨t, raw, hraw, hcraw⟩ := hext.calls hs hc'
    rw [hext.inlineOf_eq ((hw.within hraw).edges _ hcraw).1, hm.of_same hstart hrule] at hclear
    cases hclear

end GrammarWalk.Network
