import GrammarWalk.Network.Optimize
import GrammarWalk.Proofs.Network.Cycles
import GrammarWalk.SymbolSet.Lemmas

/-! Each pass of an optimization gives a result, which is a chain of rewrites away from where the
pass began; and if it counted no change, then it changed nothing. -/

namespace GrammarWalk.Network

variable {free : Call → Edge → Prop} {net net' : Network} {s t : Nat} {st : State}
  {es es' : List Edge}

/-- The references of the network are in range, and every state has an optimized list. -/
structure Ready (net : Network) : Prop extends InRange net where
  optimized : ∀ {s : Nat} {st : State}, net.states[s]? = some st → st.optimized.isSome = true

theorem Rewrite.ready (h : Rewrite free net net') (hr : net.Ready) : net'.Ready where
  toInRange := h.inRange hr.toInRange
  optimized {t st} hst := by
    obtain ⟨s, sst, es', g, -⟩ := h.grows
    by_cases ht : t < net.states.size
    · rcases g.cases hst ht with ⟨rfl, rfl⟩ | ⟨-, hst⟩
      · rfl
      · exact hr.optimized hst
    · obtain ⟨m, r, rfl, -⟩ := g.new hst (Nat.not_lt.1 ht)
      rfl

theorem Rewrite.size_le (h : Rewrite free net net') : net.states.size ≤ net'.states.size := by
  obtain ⟨s, sst, es', g, -⟩ := h.grows
  exact g.size

theorem Rewrite.tables (h : Rewrite free net net') : net' = { net with states := net'.states } := by
  obtain ⟨s, sst, es', g, -⟩ := h.grows
  exact g.tables

/-- A pass that counted `r.1` changes on the way to `r.2`. -/
def Counts (R : Network → Network → Prop) (net : Network) (r : Nat × Network) : Prop :=
  (r.1 = 0 ∧ r.2 = net) ∨ (0 < r.1 ∧ Relation.TransGen R net r.2)

def addMatching (net : Network) (rule : Option Nat) (m : Edge) : Network :=
  (net.addState .basic rule).2.modify net.states.size fun st =>
    { st with edges := [m], optimized := some [m] }

section addMatching

variable {rule : Option Nat} {m : Edge}

theorem size_addMatching : (net.addMatching rule m).states.size = net.states.size + 1 :=
  size_modify.trans size_addState

theorem getElem?_addMatching (hs : net.states[s]? = some st) :
    (net.addMatching rule m).states[s]? = some st :=
  (getElem?_modify_of_ne (Nat.ne_of_gt (lt_size hs))).trans (getElem?_addState hs)

theorem getElem?_addMatching_new :
    (net.addMatching rule m).states[net.states.size]? = some (.matching net.states.size rule m) :=
  getElem?_modify_self getElem?_addState_new

end addMatching

section splice

theorem returns_spliceOf (h : net.Ready) {e : Edge} (he : e.target < net.states.size) :
    Returns (net.spliceOf s e) fun found => ∀ hops, found = some hops →
      ∃ mid, net.Splices s e mid ∧ hops = mid.followed.map fun hop => .plain hop.target := by
  unfold spliceOf
  split
  · exact returns_pure nofun
  · rename_i hedge
    refine (returns_state he).bind fun mid hmid => ?_
    dsimp only
    split
    · exact returns_pure nofun
    · rename_i hkind
      rw [h.number hmid]
      refine (returns_onSilentCycle h.toInRange he).bind fun cycle hcycle => ?_
      split
      · exact returns_pure nofun
      · rename_i hclear
        refine returns_pure fun hops hhops => ?_
        split at hhops
        · rename_i hgo
          simp only [Bool.or_eq_true, Bool.not_eq_true', beq_iff_eq, bne_iff_ne,
            not_or, Bool.not_eq_false, ne_eq, Decidable.not_not, Bool.and_eq_true, List.all_eq_true]
            at hedge hkind hgo
          refine ⟨mid, ⟨hedge.1, hedge.2, hmid, hkind.1, hkind.2, fun hop hh => (hgo.2 hop hh).1.1,
            hcycle (by simpa using hclear)⟩, (Option.some.inj hhops).symm⟩
        · exact nomatch hhops

theorem returns_spliceEdges (h : net.Ready) (hes : ∀ e ∈ es, e.target < net.states.size) :
    Returns (net.spliceEdges s es) fun r => ∀ (free : Call → Edge → Prop) (net' : Network),
      Replaced free net net' s 0 r.1 es r.2 := by
  induction es with
  | nil => exact returns_pure fun _ _ => .nil
  | cons e es ih =>
    obtain ⟨he, hes⟩ := List.forall_mem_cons.1 hes
    unfold spliceEdges
    refine (returns_spliceOf h he).bind fun found hfound => (ih hes).bind fun r hr =>
      returns_pure ?_
    intro free net'
    cases found with
    | none => exact .keep (hr free net')
    | some hops =>
      obtain ⟨mid, hmid, rfl⟩ := hfound hops rfl
      exact .splice hmid (hr free net')

theorem grows_setFollowed (hs : net.states[s]? = some st) :
    Grows net (net.setFollowed s es) s st es where
  state := hs
  changed := getElem?_modify_self hs
  kept ht hne := (getElem?_modify_of_ne (Ne.symm hne)).trans ht
  size := Nat.le_of_eq size_modify.symm
  new ht hle := absurd (lt_size ht) (Nat.not_lt.2 (Nat.le_trans (Nat.le_of_eq size_modify) hle))
  tables := rfl

/-- What a step of a pass does: nothing, or a rewrite that it counts. -/
def CountsOne (R : Network → Network → Prop) (a b : Nat × Network) : Prop :=
  b = a ∨ (a.1 < b.1 ∧ R a.2 b.2)

/-- Edges of one state, which is no rule stop, are spliced. -/
inductive Splicing (net net' : Network) : Prop
  | mk {s j : Nat} {st : State} {es' : List Edge} : Grows net net' s st es' →
      Replaced (fun _ _ => False) net net' s 0 j st.followed es' → 0 < j → st.isRuleStop = false →
      Splicing net net'

theorem Splicing.rewrite (h : Splicing net net') : Rewrite (fun _ _ => False) net net' := by
  obtain ⟨g, hr, hpos, -⟩ := h
  exact .replace g hr (by omega)

theorem returns_spliceState {count : Nat} (h : net.Ready) (hs : s < net.states.size) :
    Returns (spliceState count net s) (CountsOne Splicing (count, net)) := by
  unfold spliceState
  refine (returns_state hs).bind fun st hst => ?_
  split
  · exact returns_pure (.inl rfl)
  · rename_i hgo
    have hns : st.isRuleStop = false := by
      simp only [Bool.or_eq_true, not_or, Bool.not_eq_true] at hgo
      exact hgo.1.1
    refine (returns_spliceEdges h fun e he => h.target_lt hst he).bind fun r hr => returns_pure ?_
    split
    · exact .inl rfl
    · rename_i hmore
      refine .inr ⟨Nat.lt_add_of_pos_right (Nat.pos_of_ne_zero hmore), ?_⟩
      exact ⟨grows_setFollowed hst, hr _ _, Nat.pos_of_ne_zero hmore, hns⟩

end splice

section merge

theorem returns_branchMatch (h : net.Ready) {e : Edge} (he : e.target < net.states.size) :
    Returns (net.branchMatch e) fun found => ∀ m, found = some m → net.Branch e m := by
  cases e with
  | epsilon target r =>
    refine (returns_state (s := target) he).bind fun st hst => ?_
    split
    · rename_i m hf
      split
      · rename_i hl
        have hm : m.target < net.states.size := h.target_lt hst (by simp [hf])
        refine (returns_state hm).bind fun stop hstop => returns_pure fun m' hm' => ?_
        split at hm'
        · obtain rfl := Option.some.inj hm'
          exact ⟨rfl, hl, st, hst, hf⟩
        · exact nomatch hm'
      · exact returns_pure nofun
    · exact returns_pure nofun
  | _ => exact returns_pure nofun

theorem target_edgeOver {symbols : SymbolSet} : (edgeOver t symbols).target = t := by
  unfold edgeOver
  split
  · split <;> rfl
  · rfl

theorem isLabelled_edgeOver {symbols : SymbolSet} : (edgeOver t symbols).isLabelled = true := by
  unfold edgeOver
  split
  · split <;> rfl
  · rfl

theorem accepts_edgeOver {symbols : SymbolSet} {v lo hi : Int} :
    (edgeOver t symbols).accepts v lo hi = true ↔ v ∈ symbols := by
  rw [SymbolSet.mem_iff_covers]
  unfold edgeOver
  split
  · rename_i a ha
    rw [ha, Span.covers_cons]
    split
    · simp only [Edge.accepts, beq_iff_eq, Span.covers_nil, or_false]
      omega
    · simp [Edge.accepts, Span.covers_nil]
  · rw [← SymbolSet.mem_iff_covers]
    rfl

theorem accepts_of_isLabelled {e : Edge} (h : e.isLabelled = true) {v lo hi : Int} :
    e.accepts v lo hi = true ↔ v ∈ e.label?.getD ∅ := by
  cases e with
  | atom _ symbol =>
    simp only [Edge.accepts, Edge.label?, Option.getD_some, SymbolSet.mem_singleton, beq_iff_eq]
    exact eq_comm
  | range _ a b => simp [Edge.accepts, Edge.label?]
  | set _ symbols => exact Iff.rfl
  | _ => cases h

theorem mem_foldl_union {α : Type} {f : α → SymbolSet} {l : List α} {v : Int} :
    ∀ {set : SymbolSet}, v ∈ l.foldl (fun set a => set ∪ f a) set ↔ v ∈ set ∨ ∃ a ∈ l, v ∈ f a := by
  induction l with
  | nil => simp
  | cons a l ih =>
    intro set
    rw [List.foldl_cons, ih, SymbolSet.mem_union]
    simp [or_assoc]

/-- The branches of a list, each with the match it has if it can be merged. -/
structure Branches (net : Network) (es : List Edge) (branches : List (Edge × Option Edge)) :
    Prop where
  edges : branches.map Prod.fst = es
  labels : ∀ b ∈ branches, ∀ m, b.2 = some m → net.Branch b.1 m

theorem returns_branches (h : net.Ready) (hes : ∀ e ∈ es, e.target < net.states.size) :
    Returns (es.mapM fun e => do return (e, ← net.branchMatch e)) (net.Branches es) := by
  have hall : Returns (es.mapM fun e => do return (e, ← net.branchMatch e)) _ := returns_mapM
    (R := fun e b => b.1 = e ∧ ∀ m, b.2 = some m → net.Branch e m) fun e he =>
      (returns_branchMatch h (hes e he)).bind fun found hfound => returns_pure ⟨rfl, hfound⟩
  refine hall.imp fun branches hb => ?_
  clear hall hes
  induction hb with
  | nil => exact ⟨rfl, nofun⟩
  | @cons e b es branches hfirst _ ih =>
    exact ⟨by rw [List.map_cons, hfirst.1, ih.edges], List.forall_mem_cons.2
      ⟨fun m hm => hfirst.1 ▸ hfirst.2 m hm, ih.labels⟩⟩

theorem grows_addMatching (hs : net.states[s]? = some st) {m : Edge} (hm : m.isLabelled = true)
    (hf : net.Follows m.target) (hk : net.kind = .parser) :
    Grows net ((net.addMatching st.rule m).setFollowed s es) s st es where
  state := hs
  changed := getElem?_modify_self (getElem?_addMatching hs)
  kept ht hne := (getElem?_modify_of_ne (Ne.symm hne)).trans (getElem?_addMatching ht)
  size := by rw [setFollowed, size_modify, size_addMatching]; omega
  new {t fresh} ht hle := by
    have hsize : t < net.states.size + 1 := by
      have := lt_size ht
      rwa [setFollowed, size_modify, size_addMatching] at this
    obtain rfl : t = net.states.size := by omega
    rw [setFollowed, getElem?_modify_of_ne (Nat.ne_of_lt (lt_size hs)), getElem?_addMatching_new]
      at ht
    exact ⟨m, st.rule, (Option.some.inj ht).symm, hm, hf, .inr ⟨hk, rfl⟩⟩
  tables := rfl

theorem Branches.merged (hk : net.kind = .parser) (hs : net.states[s]? = some st)
    {branches : List (Edge × Option Edge)}
    (hb : net.Branches st.followed branches) {stop : Nat} :
    let joins (b : Edge × Option Edge) : Bool := b.2.any (·.target == stop)
    let members := branches.filter joins
    let m := edgeOver stop (members.foldl (fun set b => set ∪ (b.2.bind Edge.label?).getD ∅) ∅)
    let es' := (branches.filter (!joins ·)).map (·.1) ++ [.plain net.states.size]
    1 < members.length →
    Rewrite free net ((net.addMatching st.rule m).setFollowed s es') := by
  intro joins members m es' htwo
  have hlabelled : m.isLabelled = true := isLabelled_edgeOver
  have hstop : m.target = stop := target_edgeOver
  have hmember {b : Edge × Option Edge} (h : b ∈ members) : ∃ bm, b.2 = some bm ∧ bm.target = stop ∧
      net.Branch b.1 bm := by
    obtain ⟨hmem, hjoins⟩ := List.mem_filter.1 h
    obtain ⟨bm, hbm, htarget⟩ := Option.any_eq_true _ _ |>.1 hjoins
    exact ⟨bm, hbm, by simpa using htarget, hb.labels b hmem bm hbm⟩
  have haccepts {v lo hi : Int} : m.accepts v lo hi = true ↔
      ∃ b ∈ members, ∃ bm, b.2 = some bm ∧ bm.accepts v lo hi = true := by
    rw [accepts_edgeOver, mem_foldl_union]
    simp only [SymbolSet.not_mem_empty, false_or]
    refine exists_congr fun b => and_congr_right fun hmem => ?_
    obtain ⟨bm, hbm, -, hbranch⟩ := hmember hmem
    rw [hbm, Option.bind_some, ← @accepts_of_isLabelled _ hbranch.labelled _ lo hi]
    simp
  have hfollows : net.Follows m.target := by
    obtain ⟨b, hmem⟩ := List.exists_mem_of_length_pos (Nat.lt_of_succ_lt htwo)
    obtain ⟨bm, -, htarget, hbranch⟩ := hmember hmem
    obtain ⟨bst, hbst, hf⟩ := hbranch.state
    obtain ⟨-, hcall, hmatch⟩ := Edge.of_isLabelled hbranch.labelled
    refine ⟨_, bst, hbst, bm, by simp [hf], hmatch, ?_⟩
    rw [Edge.onward_of_call?_eq_none hcall, htarget, hstop]
  refine .merge (grows_addMatching hs hlabelled hfollows hk)
    ⟨hlabelled, Nat.le_refl _, ?_, ⟨members.map Prod.fst, _, ?_, rfl, by simpa using htwo, ?_⟩, ?_⟩
  · rw [setFollowed, getElem?_modify_of_ne (Nat.ne_of_lt (lt_size hs)), getElem?_addMatching_new,
      ownerOf_eq hs]
  · rw [← hb.edges, ← List.map_append]
    exact (List.filter_append_perm joins branches).symm.map _
  · intro e he
    obtain ⟨b, hmem, rfl⟩ := List.mem_map.1 he
    obtain ⟨bm, hbm, htarget, hbranch⟩ := hmember hmem
    exact ⟨bm, hbranch, htarget.trans hstop.symm, fun ha => haccepts.2 ⟨b, hmem, bm, hbm, ha⟩⟩
  · intro v lo hi ha
    obtain ⟨b, hmem, bm, hbm, ha⟩ := haccepts.1 ha
    obtain ⟨bm', hbm', htarget, hbranch⟩ := hmember hmem
    obtain rfl := Option.some.inj (hbm.symm.trans hbm')
    refine ⟨b.1, hb.edges ▸ List.mem_map_of_mem (List.mem_of_mem_filter hmem), bm, hbranch, ?_, ha⟩
    exact htarget.trans hstop.symm

theorem returns_mergeBranches {count : Nat} (h : net.Ready) (hk : net.kind = .parser)
    (hs : s < net.states.size) :
    Returns (mergeBranches count net s) (CountsOne (Rewrite fun _ _ => False) (count, net)) := by
  unfold mergeBranches
  refine (returns_state hs).bind fun st hst => ?_
  refine (returns_branches h fun e he => h.target_lt hst he).bind fun branches hb => ?_
  split
  · exact returns_pure (.inl rfl)
  · dsimp only
    split
    · exact returns_pure (.inl rfl)
    · rename_i htwo
      have htwo := Nat.not_le.1 htwo
      exact returns_pure (.inr ⟨by dsimp only; omega, hb.merged hk hst htwo⟩)

end merge

section inline

variable {sole : List (Option Edge)}

theorem returns_skipEpsilons (h : net.Ready) {fuel : Nat} :
    ∀ {seen : List Nat} {s : Nat},
    s < net.states.size → seen.Nodup → (∀ t ∈ seen, t < net.states.size) →
    net.states.size < fuel + seen.length →
    Returns (net.skipEpsilons fuel seen s) fun middle => ∃ t :
    Nat, net.states[t]? = some middle := by
  induction fuel with
  | zero =>
    intro seen s _ hnodup hlt hfuel
    have hcard : seen.toFinset.card ≤ (Finset.range net.states.size).card :=
      Finset.card_le_card fun t ht => Finset.mem_range.2 (hlt t (List.mem_toFinset.1 ht))
    rw [List.toFinset_card_of_nodup hnodup, Finset.card_range] at hcard
    omega
  | succ fuel ih =>
    intro seen s hs hnodup hlt hfuel
    unfold skipEpsilons
    refine (returns_state hs).bind fun st hst => ?_
    split
    · rename_i target r hf
      split
      · rename_i hgo
        rw [Bool.and_eq_true, Bool.not_eq_true', List.contains_eq_mem, decide_eq_false_iff_not]
          at hgo
        refine ih (h.target_lt hst (e := .epsilon target r) (by simp [hf])) (hnodup.cons hgo.2)
          (List.forall_mem_cons.2 ⟨hs, hlt⟩) ?_
        rw [List.length_cons]
        omega
      · exact returns_pure ⟨s, hst⟩
    · exact returns_pure ⟨s, hst⟩

theorem returns_soleMatch (h : net.Ready) {rule start : Nat} (hrule : rule < net.ruleStarts.size)
    (hstart : start < net.states.size) :
    Returns (net.soleMatch rule start) fun found => ∀ m, found = some m → m.isLabelled = true := by
  unfold soleMatch
  refine (returns_skipEpsilons h hstart List.nodup_nil nofun (by simp)).bind
    fun middle hmiddle => ?_
  obtain ⟨t, ht⟩ := hmiddle
  split
  · rename_i m hf
    split
    · rename_i hm
      refine (returns_state (h.target_lt ht (by simp [hf]))).bind fun after _ => ?_
      split
      · split
        · have hstop := Array.getElem?_eq_getElem (Nat.lt_of_lt_of_le hrule h.stops)
          refine (returns_ofLookup hstop trivial (P := fun _ => True)).bind fun stop _ =>
            returns_pure ?_
          intro m' hm'
          split at hm'
          · exact Option.some.inj hm' ▸ hm
          · exact nomatch hm'
        · exact returns_pure nofun
      · exact returns_pure nofun
    · exact returns_pure nofun
  · exact returns_pure nofun

theorem returns_soleMatches (h : net.Ready) :
    Returns net.soleMatches fun sole => ∀ m, some m ∈ sole → m.isLabelled = true := by
  have hall : Returns net.soleMatches _ := returns_mapM
    (R := fun _ found => ∀ m, found = some m → m.isLabelled = true) fun p hp => by
      obtain ⟨start, rule⟩ := p
      have hget := List.mk_mem_zipIdx_iff_getElem?.1 hp
      rw [Array.getElem?_toList] at hget
      exact returns_soleMatch h (Array.getElem?_eq_some_iff.1 hget).1 (h.start hget)
  refine hall.imp fun sole hsole => ?_
  clear hall
  generalize net.ruleStarts.toList.zipIdx = starts at hsole
  induction hsole with
  | nil => exact nofun
  | cons hfirst _ ih =>
    intro m hm
    rcases List.mem_cons.1 hm with hm | hm
    · exact hfirst m hm.symm
    · exact ih m hm

theorem inlineOf_eq_some {e : Edge} {c : Call} {m : Edge} (h : net.inlineOf sole e = some (c, m)) :
    e = .call c ∧ some m ∈ sole := by
  cases e with
  | call c' =>
    simp only [inlineOf, Option.bind_eq_bind, Option.bind_eq_some_iff, Option.pure_def,
      Option.some.injEq, Prod.mk.injEq] at h
    obtain ⟨start, -, found, hfound, _, rfl, rfl, rfl⟩ := h
    exact ⟨rfl, List.mem_of_getElem? hfound⟩
  | _ => exact nomatch h

/-- `net'` is `net` with new states that each have one match, which leads where some edge led. -/
structure Appends (net net' : Network) : Prop where
  kept : ∀ {t : Nat} {old : State}, net.states[t]? = some old → net'.states[t]? = some old
  size : net.states.size ≤ net'.states.size
  new : ∀ {t : Nat} {fresh : State}, net'.states[t]? = some fresh → net.states.size ≤ t →
    ∃ (m : Edge) (r : Option Nat), fresh = .matching t r m ∧ m.isLabelled = true ∧
      net.Follows m.target ∧ r = net.ownerOf m.target
  tables : net' = { net with states := net'.states }

theorem Appends.refl (net : Network) : Appends net net :=
  ⟨fun h => h, Nat.le_refl _, fun h hle => absurd (lt_size h) (Nat.not_lt.2 hle), rfl⟩

theorem Appends.addMatching (h : Appends net net') {rule : Option Nat} {m : Edge}
    (hm : m.isLabelled = true) (hf : net.Follows m.target) (hr : rule = net.ownerOf m.target) :
    Appends net (net'.addMatching rule m) where
  kept ht := getElem?_addMatching (h.kept ht)
  size := by rw [size_addMatching]; exact Nat.le_succ_of_le h.size
  new {t fresh} ht hle := by
    have hlt := lt_size ht
    rw [size_addMatching] at hlt
    obtain hlt | rfl := Nat.lt_succ_iff_lt_or_eq.1 hlt
    · rw [getElem?_addMatching (Array.getElem?_eq_getElem hlt)] at ht
      exact h.new ((Array.getElem?_eq_getElem hlt).trans ht) hle
    · rw [getElem?_addMatching_new] at ht
      exact ⟨m, rule, (Option.some.inj ht).symm, hm, hf, hr⟩
  tables := by
    rw [show net'.addMatching rule m = { net' with states := (net'.addMatching rule m).states }
      from rfl, h.tables]

theorem Appends.grows (h : Appends net net') (hs : net.states[s]? = some st) :
    Grows net (net'.setFollowed s es) s st es where
  state := hs
  changed := getElem?_modify_self (h.kept hs)
  kept ht hne := (getElem?_modify_of_ne (Ne.symm hne)).trans (h.kept ht)
  size := by rw [setFollowed, size_modify]; exact h.size
  new {t fresh} ht hle := by
    have hne : s ≠ t := fun heq => absurd (lt_size hs) (Nat.not_lt.2 (heq ▸ hle))
    rw [setFollowed, getElem?_modify_of_ne hne] at ht
    obtain ⟨m, r, hfresh, hm, hf, hr⟩ := h.new ht hle
    exact ⟨m, r, hfresh, hm, hf, .inl hr⟩
  tables := by
    rw [show net'.setFollowed s es = { net' with states := (net'.setFollowed s es).states }
      from rfl, h.tables]

theorem Appends.inlineOf_eq (h : Appends net net') {e : Edge} (he : e.target < net.states.size) :
    net'.inlineOf sole e = net.inlineOf sole e := by
  cases e with
  | call c =>
    have hc : c.start < net.states.size := he
    simp only [inlineOf, h.kept (Array.getElem?_eq_getElem hc), Array.getElem?_eq_getElem hc]
  | _ => rfl

/-- The match `m` was found for the rule that the call `c` enters. -/
def InlinedBy (net : Network) (sole : List (Option Edge)) (c : Call) (m : Edge) : Prop :=
  net.inlineOf sole (.call c) = some (c, m)

/-- What inlining in the edges of state `s` of `base` leaves: a list, and new states that keep what
has been replaced so far as it is. -/
structure InlinedEdges (base net : Network) (sole : List (Option Edge)) (s : Nat) (es : List Edge)
    (r : Nat × List Edge × Network) : Prop where
  appends : Appends base r.2.2
  kept : ∀ {t : Nat} {old : State}, net.states[t]? = some old → r.2.2.states[t]? = some old
  count : r.1 = es.countP fun e => (base.inlineOf sole e).isSome
  left : ∀ e ∈ r.2.1, e.call? = none ∨ base.inlineOf sole e = none
  replaced : ∀ {net' : Network}, (∀ {t : Nat} {fresh : State}, base.states.size ≤ t →
    r.2.2.states[t]? = some fresh → net'.states[t]? = some fresh) →
    Replaced (base.InlinedBy sole) base net' s r.1 0 es r.2.1

theorem returns_inlineEdges {base : Network} (h : base.Ready) (hs : base.states[s]? = some st)
    (hsole : ∀ m, some m ∈ sole → m.isLabelled = true) (hes : ∀ e ∈ es, e ∈ st.followed) :
    ∀ {net : Network}, Appends base net →
      Returns (inlineEdges sole net es) (InlinedEdges base net sole s es) := by
  induction es with
  | nil => exact fun ha => returns_pure ⟨ha, fun h => h, rfl, nofun, fun _ => .nil⟩
  | cons e es ih =>
    intro net ha
    rw [List.forall_mem_cons] at hes
    obtain ⟨he, hes⟩ := hes
    have heq : net.inlineOf sole e = base.inlineOf sole e := ha.inlineOf_eq (h.target_lt hs he)
    unfold inlineEdges
    rw [heq]
    cases hfound : base.inlineOf sole e with
    | none =>
      refine (ih hes ha).bind fun r hr => returns_pure ⟨hr.appends, hr.kept, ?_, ?_, fun hn => ?_⟩
      · rw [hr.count, List.countP_cons, hfound]
        rfl
      · exact List.forall_mem_cons.2 ⟨.inr hfound, hr.left⟩
      · exact .keep (hr.replaced hn)
    | some found =>
      obtain ⟨c, m⟩ := found
      obtain ⟨rfl, hmem⟩ := inlineOf_eq_some hfound
      obtain ⟨after, hfollow⟩ : ∃ after, base.states[c.follow]? = some after :=
        ⟨_, Array.getElem?_eq_getElem (h.follow_lt hs he)⟩
      refine (returns_ofLookup (P := fun st => base.states[c.follow]? = some st)
        (ha.kept hfollow) hfollow).bind fun follow hst => ?_
      have hnext : Appends base (net.addMatching follow.rule (m.retarget c.follow)) := by
        refine ha.addMatching (by rw [isLabelled_retarget]; exact hsole m hmem) ?_ ?_
        · exact ⟨s, st, hs, .call c, he, rfl, (Edge.target_retarget m c.follow).symm⟩
        · rw [Edge.target_retarget, ownerOf_eq hst]
      refine (ih hes hnext).bind fun r hr => returns_pure ⟨hr.appends, ?_, ?_, ?_, fun hn => ?_⟩
      · exact fun ht => hr.kept (getElem?_addMatching ht)
      · dsimp only
        rw [hr.count, List.countP_cons, hfound]
        rfl
      · exact List.forall_mem_cons.2 ⟨.inl rfl, hr.left⟩
      · refine .inline ⟨hfound, hsole m hmem, ha.size, ?_⟩ (hr.replaced hn)
        rw [ownerOf_eq hst]
        exact hn ha.size (hr.kept getElem?_addMatching_new)

/-- The new states that an inlined list leads to are behind those there were, each of them for one
edge. -/
theorem nodup_of_inlineEdges {base : Network} (hes : ∀ e ∈ es, e.target < base.states.size)
    (hsize : base.states.size ≤ net.states.size) {count : Nat}
    (hr : inlineEdges sole net es = .ok (count, es', net')) :
    (∀ e ∈ es', e.target < base.states.size ∨ net.states.size ≤ e.target) ∧
      (es'.filter fun e => base.states.size ≤ e.target).Nodup := by
  induction es generalizing net count es' net' with
  | nil =>
    obtain ⟨-, rfl, -⟩ := by simpa only [Prod.mk.injEq] using pure_eq_ok.1 hr
    exact ⟨nofun, List.nodup_nil⟩
  | cons e es ih =>
    obtain ⟨he, hes⟩ := List.forall_mem_cons.1 hes
    rw [inlineEdges] at hr
    split at hr
    · simp only [bind_eq_ok, pure_eq_ok, Prod.exists, Prod.mk.injEq] at hr
      obtain ⟨_, _, _, hrest, -, rfl, -⟩ := hr
      obtain ⟨hfar, hnodup⟩ := ih hes hsize hrest
      refine ⟨List.forall_mem_cons.2 ⟨.inl he, hfar⟩, ?_⟩
      rwa [List.filter_cons_of_neg (by simpa using he)]
    · rename_i c m _
      simp only [bind_eq_ok, pure_eq_ok, Prod.exists, Prod.mk.injEq] at hr
      obtain ⟨follow, -, _, rest, _, hrest, -, rfl, -⟩ := hr
      have hgrown : (net.addMatching follow.rule (m.retarget c.follow)).states.size =
        net.states.size + 1 := size_addMatching
      obtain ⟨hfar, hnodup⟩ := ih hes (Nat.le_trans hsize (hgrown ▸ Nat.le_succ _)) hrest
      have hfar : ∀ e ∈ rest, e.target < base.states.size ∨ net.states.size + 1 ≤ e.target :=
        fun e he => hgrown ▸ hfar e he
      have hbehind : decide
          (base.states.size ≤ (Edge.plain (net.addState .basic follow.rule).1).target) = true :=
        decide_eq_true hsize
      refine ⟨List.forall_mem_cons.2 ⟨.inr (Nat.le_refl _),
        fun e he => (hfar e he).imp_right Nat.le_of_succ_le⟩, ?_⟩
      rw [List.filter_cons, hbehind]
      refine hnodup.cons fun hmem => ?_
      have hagain := hfar _ (List.mem_of_mem_filter hmem)
      have hfresh : (Edge.plain (net.addState .basic follow.rule).1).target = net.states.size := rfl
      omega

/-- Calls of one state are inlined, each at a new state of its own. -/
inductive Inlining (sole : List (Option Edge)) (net net' : Network) : Prop
  | mk {s i : Nat} {st : State} {es' : List Edge} : Grows net net' s st es' →
      Replaced (net.InlinedBy sole) net net' s i 0 st.followed es' → 0 < i →
      (es'.filter fun e => net.states.size ≤ e.target).Nodup → Inlining sole net net'

theorem Inlining.rewrite (h : Inlining sole net net') : Rewrite (net.InlinedBy sole) net net' := by
  obtain ⟨g, hr, hpos, -⟩ := h
  exact .replace g hr (by omega)

theorem returns_inlineState {count : Nat} (h : net.Ready)
    (hsole : ∀ m, some m ∈ sole → m.isLabelled = true) (hs : s < net.states.size) :
    Returns (inlineState sole count net s) (CountsOne (Inlining sole) (count, net)) := by
  unfold inlineState
  refine (returns_state hs).bind fun st hst => ?_
  split
  · exact returns_pure (.inl rfl)
  · rename_i hsome
    refine ((returns_inlineEdges h hst hsole (fun e he => he) (.refl net)).and fun r hr =>
      (nodup_of_inlineEdges (fun e he => h.target_lt hst he) (Nat.le_refl _) hr).2).bind fun r
      ⟨hr, hnodup⟩ => returns_pure ?_
    have hpos : 0 < r.1 := by
      rw [hr.count, List.countP_pos_iff]
      have hsome : st.rule ≠ none ∧ ∃ e ∈ st.followed, net.inlineOf sole e ≠ none := by
        simpa using hsome
      simpa [Option.isSome_iff_ne_none] using hsome.2
    refine .inr ⟨Nat.lt_add_of_pos_right hpos, ⟨hr.appends.grows hst, hr.replaced ?_, hpos, hnodup⟩⟩
    intro t fresh hle ht
    have hne : s ≠ t := fun heq => absurd (lt_size hst) (Nat.not_lt.2 (heq ▸ hle))
    exact (getElem?_modify_of_ne hne).trans ht

end inline

section loops

variable {R : Network → Network → Prop} {l : List Nat}

/-- A pass over states of the network, each step of which gives a result and counts what it does. -/
theorem returns_pass {f : Nat → Network → Nat → Except Fault (Nat × Network)}
    (hR : ∀ {a b : Network}, R a b → ∃ free, Rewrite free a b)
    (hf : ∀ {count : Nat} {net' : Network} {s : Nat}, net'.Ready → net'.kind = net.kind →
      s < net'.states.size → Returns (f count net' s) (CountsOne R (count, net'))) (h : net.Ready)
    (hl : ∀ s ∈ l, s < net.states.size) :
    Returns (l.foldlM (fun (a : Nat × Network) s => f a.1 a.2 s) (0, net)) (Counts R net) := by
  have hloop : Returns (l.foldlM (fun (a : Nat × Network) s => f a.1 a.2 s) (0, net)) fun b =>
      Counts R net b ∧ b.2.Ready ∧ b.2.kind = net.kind ∧ net.states.size ≤ b.2.states.size := by
    refine returns_foldlM (fun s hs a ha => ?_) ⟨.inl ⟨rfl, rfl⟩, h, rfl, Nat.le_refl _⟩
    obtain ⟨hcount, hready, hkind, hsize⟩ := ha
    refine (hf hready hkind (Nat.lt_of_lt_of_le (hl s hs) hsize)).imp fun b hb => ?_
    obtain rfl | ⟨hlt, hstep⟩ := hb
    · exact ⟨hcount, hready, hkind, hsize⟩
    · obtain ⟨free, hrewrite⟩ := hR hstep
      have hkind' : b.2.kind = a.2.kind := by rw [hrewrite.tables]
      refine ⟨.inr ⟨Nat.lt_of_le_of_lt (Nat.zero_le _) hlt, ?_⟩, hrewrite.ready hready,
        hkind'.trans hkind, Nat.le_trans hsize hrewrite.size_le⟩
      obtain ⟨-, heq⟩ | ⟨-, hchain⟩ := hcount
      · exact .single (heq ▸ hstep)
      · exact hchain.tail hstep
  exact hloop.imp fun _ hb => hb.1

theorem returns_spliceEpsilons (h : net.Ready) : Returns net.spliceEpsilons (Counts Splicing net) :=
  returns_pass (fun h => ⟨_, h.rewrite⟩) (fun h _ hs => returns_spliceState h hs) h
    fun s hs => by simpa using hs

theorem returns_mergeMatches (h : net.Ready) :
    Returns net.mergeMatches (Counts (Rewrite fun _ _ => False) net) := by
  unfold mergeMatches
  cases hkind : net.kind with
  | lexer => exact returns_pure (.inl ⟨rfl, rfl⟩)
  | parser =>
    refine returns_pass (fun h => ⟨_, h⟩)
      (fun h hk hs => returns_mergeBranches h (hk.trans hkind) hs) h
      fun s hs => ?_
    obtain ⟨d, hd⟩ := List.mem_iff_getElem?.1 hs
    exact h.decision (by simpa using hd)

theorem returns_inlineCalls (h : net.Ready) : Returns net.inlineCalls fun r =>
    ∃ sole, net.soleMatches = .ok sole ∧ Counts (Inlining sole) net r := by
  obtain ⟨sole, hfound, hsole⟩ := returns_soleMatches h
  unfold inlineCalls
  rw [hfound]
  show Returns (if sole.all Option.isNone then pure (0, net) else _) _
  split
  · exact returns_pure ⟨sole, rfl, .inl ⟨rfl, rfl⟩⟩
  · refine Returns.imp (returns_pass (R := Inlining sole) (fun h => ⟨_, h.rewrite⟩)
      (fun h _ hs => returns_inlineState h hsole hs) h fun s hs => by simpa using hs) fun r hr => ?_
    exact ⟨sole, rfl, hr⟩

end loops

end GrammarWalk.Network
