import GrammarWalk.Proofs.Load.Finish

/-! A load that adds bypasses changes nothing else. Over the tokens of the grammar the rules accept
what they accepted; the new token of a rule stands for the rule, or for the part of a precedence
rule that comes before its loop; and the decisions keep their numbers. -/

namespace GrammarWalk

namespace Network

variable {base net net' a b : Network} {k r s t start : Nat} {st : State} {lo hi : Int}
  {w : List Int}

theorem Spans.lt_size (h : base.Draft) (hs : base.Spans r t) : t < base.states.size := by
  cases hs with
  | rule _ hstop =>
    obtain ⟨st, hst, -⟩ := h.stop hstop
    exact Network.lt_size hst
  | before _ hst _ _ _ => exact Network.lt_size hst

def bypassToken (net : Network) (r : Nat) : Int := net.maxToken + r + 1

/-- `net` is `base` with bypasses of its first `k` rules, and with tokens that stand for all of
them. -/
structure Extended (base : Network) (k : Nat) (net : Network) : Prop where
  draft : net.Draft
  size : net.states.size = base.states.size + 3 * k
  tables : net = { base with
    states := net.states, decisions := net.decisions, ruleTokens := net.ruleTokens }
  tokens : ∀ r < base.ruleCount, net.ruleTokens[r]? = some (base.bypassToken r)
  decisions : net.decisions.toList = base.decisions.toList ++
    (List.range k).map (base.states.size + 3 * ·)
  marks : SameMarks base net
  kept : ∀ {s : Nat} {st : State}, base.states[s]? = some st →
    ∃ st', net.states[s]? = some st' ∧ st'.kind = st.kind ∧ st'.rule = st.rule
  blocks : ∀ r < k, ∃ st, net.states[base.states.size + 3 * r]? = some st ∧ st.rule = some r ∧
    st.kind.decision? = some { number := some (base.decisions.size + r) }
  spans : ∀ {r t : Nat}, net.Spans r t → base.Spans r t
  labels : ∀ {s t : Nat} {lo hi : Int} {w : List Int}, s < base.states.size →
    (∀ r < k, base.bypassToken r ∉ w) →
    (net.Labels State.edges lo hi s t w ↔ base.Labels State.edges lo hi s t w)
  past : ∀ r < k, ∃ start partEnd, base.ruleStarts[r]? = some start ∧ base.Spans r partEnd ∧
    net.ReadsPast base.states.size r start partEnd (base.bypassToken r)

theorem extended_tokens (h : base.Draft) :
    Extended base 0 { base with
    ruleTokens := ((List.range base.ruleCount).map fun (r : Nat) =>
    base.maxToken + r + 1).toArray } where
  draft := ⟨⟨h.number, h.within, h.start, h.stop, h.mode, h.decision⟩, h.bare, h.stops⟩
  size := rfl
  tables := rfl
  tokens r hr := by
    rw [List.getElem?_toArray, List.getElem?_map, List.getElem?_range hr]
    rfl
  decisions := by rw [List.range_zero, List.map_nil, List.append_nil]
  marks := ⟨⟨rfl, rfl⟩, fun _ => rfl⟩
  kept hs := ⟨_, hs, rfl, rfl⟩
  blocks r hr := absurd hr (Nat.not_lt_zero r)
  spans hs := by
    cases hs with
    | rule hnot hstop => exact .rule hnot hstop
    | before hprecedence hentry hrule hkind hexits =>
      exact .before hprecedence hentry hrule hkind hexits
  labels _ _ := ⟨fun hrun => hrun.congr rfl fun hs => ⟨_, hs, rfl, rfl⟩,
    fun hrun => hrun.congr rfl fun hs => ⟨_, hs, rfl, rfl⟩⟩
  past r hr := absurd hr (Nat.not_lt_zero r)

section step

variable {partEnd : Nat} (h : Extended base k net)
  (hby : Bypassed k start partEnd (base.bypassToken k) net net')
include h hby

theorem Extended.decisions_succ : net'.decisions.toList =
    base.decisions.toList ++ (List.range (k + 1)).map (base.states.size + 3 * ·) := by
  have hpush : net'.decisions = net.decisions.push net.states.size := by rw [hby.rest]
  rw [hpush, Array.toList_push, h.decisions, h.size, List.append_assoc, List.range_succ,
    List.map_append]
  rfl

theorem Extended.kept_succ (hs : base.states[s]? = some st) :
    ∃ st', net'.states[s]? = some st' ∧ st'.kind = st.kind ∧ st'.rule = st.rule := by
  obtain ⟨mid, hmid, hkind, hrule⟩ := h.kept hs
  obtain ⟨st', hst', hkind', hrule'⟩ := hby.kept hmid
  exact ⟨st', hst', hkind'.trans hkind, hrule'.trans hrule⟩

theorem Extended.blocks_succ (hstart : net.states[start]? = some st) (hr : r < k + 1) : ∃ st,
    net'.states[base.states.size + 3 * r]? = some st ∧ st.rule = some r ∧
    st.kind.decision? = some { number := some (base.decisions.size + r) } := by
  obtain hlt | rfl := Nat.lt_succ_iff_lt_or_eq.1 hr
  · obtain ⟨st, hst, hrule, hdecision⟩ := h.blocks r hlt
    obtain ⟨st', hst', hkind, hrule'⟩ := hby.kept hst
    exact ⟨st', hst', hrule'.trans hrule, by rw [hkind, hdecision]⟩
  · have hcount : net.decisions.size = base.decisions.size + r := by
      rw [← Array.length_toList, h.decisions]
      simp
    obtain ⟨body, -, hblock⟩ := hby.block hstart
    rw [h.size] at hblock
    exact ⟨_, hblock, rfl, by rw [hcount]; rfl⟩

theorem Extended.labels_succ (hs : s < base.states.size)
    (hw : ∀ r < k + 1, base.bypassToken r ∉ w) :
    net'.Labels State.edges lo hi s t w ↔ base.Labels State.edges lo hi s t w := by
  have hlt : s < net.states.size := by rw [h.size]; omega
  calc net'.Labels State.edges lo hi s t w
    _ ↔ net.Labels State.edges lo hi s t w := hby.labels_iff h.draft hlt (hw k (Nat.lt_succ_self k))
    _ ↔ base.Labels State.edges lo hi s t w := h.labels hs fun r hr => hw r (Nat.lt_succ_of_lt hr)

theorem Extended.past_succ (hb : base.Draft) (hr : r < k + 1) : ∃ start partEnd,
    base.ruleStarts[r]? = some start ∧ base.Spans r partEnd ∧
    net'.ReadsPast base.states.size r start partEnd (base.bypassToken r) := by
  have hstart : base.ruleStarts[k]? = some start := h.marks.starts ▸ hby.ruleStart
  have hspans : base.Spans k partEnd := h.spans hby.spans
  obtain hlt | rfl := Nat.lt_succ_iff_lt_or_eq.1 hr
  · obtain ⟨first, hfirst, -⟩ := hb.start hstart
    obtain ⟨start', partEnd', hstart', hspans', hpast⟩ := h.past r hlt
    exact ⟨start', partEnd', hstart', hspans',
      hby.readsPast h.draft h.size (lt_size hfirst) (hspans.lt_size hb) hpast⟩
  · exact ⟨start, partEnd, hstart, hspans, hby.readsPast_token h.draft h.size⟩

end step

theorem Extended.addBypass (h : Extended base k net) (hb : base.Draft) (hk : k < base.ruleCount)
    (hn : net.addBypass k = .ok net') : Extended base (k + 1) net' := by
  obtain ⟨start, partEnd, token, hby⟩ := bypassed_of_addBypass h.draft hn
  obtain rfl : token = base.bypassToken k :=
    Option.some.inj (hby.ruleToken.symm.trans (h.tokens k hk))
  obtain ⟨first, hfirst, -⟩ := h.draft.start hby.ruleStart
  exact {
    draft := (addBypass_keeps h.draft hn).1
    size := by rw [hby.size, h.size]; omega
    tables := by rw [hby.rest, h.tables]
    tokens := by rw [hby.rest]; exact h.tokens
    decisions := h.decisions_succ hby
    marks := h.marks.trans hby.marks
    kept := h.kept_succ hby
    blocks := fun _ => h.blocks_succ hby hfirst
    spans := fun hs => h.spans (hby.spans_before h.draft hs)
    labels := h.labels_succ hby
    past := fun _ => h.past_succ hby hb }

theorem extended_withBypasses (h : base.Draft) (hn : base.withBypasses = .ok net) :
    Extended base base.ruleCount net :=
  foldlM_range_keeps (P := Extended base) (fun _ hk _ _ hm hs => hm.addBypass h hk hs)
    (extended_tokens h) hn

/-- A symbol that the input may hold: a token of the grammar, or the end of the input. -/
def IsToken (net : Network) (v : Int) : Prop := v = Symbol.eof ∨ 1 ≤ v ∧ v ≤ net.maxToken

instance (v : Int) : Decidable (net.IsToken v) := inferInstanceAs (Decidable (_ ∨ _))

theorem IsToken.ne_bypassToken {v : Int} (h : net.IsToken v) (hmax : 0 ≤ net.maxToken) :
    net.bypassToken r ≠ v := by
  rw [IsToken, Symbol.eof] at h
  rw [bypassToken]
  omega

/-- The rule of `b`, which has bypasses from the state `first` on, accepts what it accepts in `a`,
and its token stands for the part of it that its bypass spans. -/
structure RuleExtends (first : Nat) (a b : Network) (r start stop : Nat) : Prop where
  starts : a.ruleStarts[r]? = some start ∧ b.ruleStarts[r]? = some start
  stops : a.ruleStops[r]? = some stop ∧ b.ruleStops[r]? = some stop
  words : ∀ {lo hi : Int} {w : List Int}, (∀ v ∈ w, a.IsToken v) →
    (b.Labels State.edges lo hi start stop w ↔ a.Labels State.edges lo hi start stop w)
  token : a.isPrecedenceRule r = false →
    ∀ {lo hi : Int}, b.Labels State.edges lo hi start stop [a.bypassToken r]
  past : ∃ partEnd, a.Spans r partEnd ∧ b.ReadsPast first r start partEnd (a.bypassToken r)

/-- `b` is `a` with bypasses of its rules, from the state `first` on, and nothing else has changed:
the rules accept what they accepted, and the decisions have their numbers. -/
structure Conservative (first : Nat) (a b : Network) : Prop where
  rules : ∀ r < a.ruleCount, ∃ start stop, RuleExtends first a b r start stop
  decisions : b.decisions.toList = a.decisions.toList ++ (List.range a.ruleCount).map
    (first + 3 * ·)
  numbers : ∀ {d s : Nat}, a.decisions[d]? = some s → ∃ st st', a.states[s]? = some st ∧
    b.states[s]? = some st' ∧ st'.kind = st.kind
  blocks : ∀ r < a.ruleCount, ∃ st, b.states[first + 3 * r]? = some st ∧ st.rule = some r ∧
    st.kind.decision? = some { number := some (a.decisions.size + r) }

section finished

variable (h : Extended base k net) (hd : base.Draft) (ha : Finished base a) (hb : Finished net b)
include h hd ha hb

theorem Extended.labels_iff (hmax : 0 ≤ base.maxToken) (hs : s < base.states.size)
    (hw : ∀ v ∈ w, base.IsToken v) :
    b.Labels State.edges lo hi s t w ↔ a.Labels State.edges lo hi s t w := by
  have hnone (i : Nat) : base.bypassToken i ∉ w := fun hmem => (hw _ hmem).ne_bypassToken hmax rfl
  calc b.Labels State.edges lo hi s t w
    _ ↔ net.Labels State.edges lo hi s t w := hb.labels_iff h.draft.toWired (by rw [h.size]; omega)
    _ ↔ base.Labels State.edges lo hi s t w := h.labels hs fun i _ => hnone i
    _ ↔ a.Labels State.edges lo hi s t w := (ha.labels_iff hd.toWired hs).symm

theorem Extended.ruleExtends (hsize : base.ruleStops.size = base.ruleStarts.size)
    (hmax : 0 ≤ base.maxToken) (hr : r < k) :
    ∃ start stop, RuleExtends base.states.size a b r start stop := by
  obtain ⟨start, partEnd, hstart, hspans, hpast⟩ := h.past r hr
  obtain ⟨hcount, -⟩ := Array.getElem?_eq_some_iff.1 hstart
  obtain ⟨stop, hstop⟩ : ∃ stop, base.ruleStops[r]? = some stop :=
    ⟨_, Array.getElem?_eq_getElem (hsize ▸ hcount)⟩
  obtain ⟨first, hfirst, -⟩ := hd.start hstart
  obtain ⟨last, hlast, hlastStop, -⟩ := hd.stop hstop
  have htoken : a.bypassToken r = base.bypassToken r := by
    rw [bypassToken, bypassToken, ha.maxToken_eq]
  have hpast : b.ReadsPast base.states.size r start partEnd (a.bypassToken r) :=
    htoken ▸ hb.readsPast hpast
  refine ⟨start, stop, ⟨?_, ?_⟩, ⟨?_, ?_⟩, fun {lo hi w} hw => ?_, fun hnot {lo hi} => ?_, partEnd,
    ha.spans hspans, hpast⟩
  · rw [ha.ruleStarts_eq, hstart]
  · rw [hb.ruleStarts_eq, h.marks.starts, hstart]
  · rw [ha.ruleStops_eq, hstop]
  · rw [hb.ruleStops_eq, h.tables, hstop]
  · refine h.labels_iff hd ha hb hmax (lt_size hfirst) fun v hv => ?_
    rw [IsToken, ← ha.maxToken_eq]
    exact hw v hv
  · rw [ha.marks.isPrecedenceRule_eq] at hnot
    have hend : partEnd = stop := by
      cases hspans with
      | rule _ hstop' => exact Option.some.inj (hstop'.symm.trans hstop)
      | before hprecedence => simp [hnot] at hprecedence
    obtain ⟨mid, hmid, hkind, -⟩ := h.kept hlast
    obtain ⟨last', hlast', hkind', -⟩ := hb.old hmid
    subst hend
    exact hpast.labels hlast' (by rwa [State.isRuleStop, hkind', hkind])

theorem Extended.numbers {d : Nat} (hs : a.decisions[d]? = some s) :
    ∃ st st', a.states[s]? = some st ∧
    b.states[s]? = some st' ∧ st'.kind = st.kind := by
  rw [ha.decisions_eq] at hs
  obtain ⟨st, hst, -⟩ := hd.decision hs
  obtain ⟨sta, hsta, hkinda, -⟩ := ha.old hst
  obtain ⟨mid, hmid, hkind, -⟩ := h.kept hst
  obtain ⟨stb, hstb, hkindb, -⟩ := hb.old hmid
  exact ⟨sta, stb, hsta, hstb, hkindb.trans (hkind.trans hkinda.symm)⟩

end finished

theorem Extended.conservative (h : Extended base base.ruleCount net) (hd : base.Draft)
    (hsize : base.ruleStops.size = base.ruleStarts.size) (hmax : 0 ≤ base.maxToken)
    (ha : Finished base a) (hb : Finished net b) : Conservative base.states.size a b := by
  have hcount : a.ruleCount = base.ruleCount := by rw [ruleCount, ruleCount, ha.ruleStarts_eq]
  refine ⟨fun r hr => h.ruleExtends hd ha hb hsize hmax (hcount ▸ hr), ?_, h.numbers hd ha hb,
    fun r hr => ?_⟩
  · rw [hb.decisions_eq, h.decisions, ha.decisions_eq, hcount]
  · obtain ⟨st, hst, hrule, hdecision⟩ := h.blocks r (hcount ▸ hr)
    obtain ⟨st', hst', hkind, hrule', -⟩ := hb.old hst
    exact ⟨st', hst', hrule'.trans hrule, by rw [hkind, hdecision, ha.decisions_eq]⟩

end Network

/-- A load with bypasses extends a load without conservatively. -/
theorem loadWords_conservative {words : List Wire.Word} {plain bypassing : LoadOptions}
    {decoded a b : Network} (hdecode : Wire.decode words = .ok decoded)
    (hparser : decoded.kind = .parser) (hplain : plain.bypass = false)
    (hbypassing : bypassing.bypass = true) (ha : loadWords words plain = .ok a)
    (hb : loadWords words bypassing = .ok b) : Network.Conservative decoded.states.size a b := by
  obtain ⟨hd, hsize⟩ := Wire.decode_keeps hdecode
  obtain ⟨_, m, hdecode', hm, hfinished⟩ := loadWords_finished ha
  obtain rfl := Except.ok.inj (hdecode.symm.trans hdecode')
  obtain ⟨-, rfl⟩ | ⟨⟨hbypass, -⟩, -⟩ := hm
  · obtain ⟨_, m, hdecode', hm, hfinished'⟩ := loadWords_finished hb
    obtain rfl := Except.ok.inj (hdecode.symm.trans hdecode')
    obtain ⟨hnot, -⟩ | ⟨-, hm⟩ := hm
    · exact absurd ⟨hbypassing, hparser⟩ hnot
    · exact (Network.extended_withBypasses hd hm).conservative hd hsize
        (Wire.decode_countsTokens hdecode) hfinished
        hfinished'
  · rw [hplain] at hbypass
    cases hbypass

/-- A precedence rule that matches the symbol 1, and then any number of times the symbol of a sign
and itself at level 2; and a rule that calls it. -/
def sumsOf (sign : Wire.Word) : List Wire.Word :=
  let counted (n : Nat) (words : List Wire.Word) := UInt16.ofNat n :: words
  let states : List (List Wire.Word) :=
    [[2, 0], [7, 0], [1, 0], [1, 0], [10, 0], [5, 0, 6], [8, 0], [9, 0], [12, 0, 7], [1, 0],
      [1, 0], [1, 0], [1, 0], [2, 1], [7, 1], [1, 1], [1, 1]]
  let edges :=
    [Wire.eps 0 2, Wire.atom 2 3 1, Wire.eps 3 4, Wire.eps 4 5, Wire.eps 4 8, Wire.eps 5 9,
      [9, 10, 10, 1, 0, 0], Wire.atom 10 11 sign, [11, 12, 3, 0, 0, 2], Wire.eps 12 6,
      Wire.eps 6 7, Wire.eps 7 4, Wire.eps 8 1, Wire.eps 13 15, Wire.callOf 15 16 0 0,
      Wire.eps 16 14]
  Wire.shiftWords <| [3] ++ Wire.toWords Wire.identifierWords Wire.Version.newest.identifier ++
    [1, 2] ++ counted states.length states.flatten ++ [0] ++ counted 1 [0] ++
    counted 2 [0, 13] ++ [0, 0, 0] ++ counted edges.length edges.flatten ++ counted 2 [4, 5]

/-- Sums with the symbol 2 for a sign. -/
def sumWords : List Wire.Word := sumsOf 2

theorem loadWords_conservative_sumWords : ∃ decoded a b, Wire.decode sumWords = .ok decoded ∧
    loadWords sumWords { optimize := false } = .ok a ∧
    loadWords sumWords { bypass := true, optimize := false } = .ok b ∧
    decoded.states.size = 17 ∧ a.isPrecedenceRule 0 = true ∧ a.isPrecedenceRule 1 = false ∧
    b.states.size = 23 ∧ Network.Conservative decoded.states.size a b := by
  obtain ⟨decoded, hdecode, hd⟩ := ok_of_any (x := Wire.decode sumWords)
    (p := fun net => net.states.size == 17 && net.kind == .parser) (by decide +kernel)
  obtain ⟨a, ha, hprecedence⟩ := ok_of_any (x := loadWords sumWords { optimize := false })
    (p := fun net => net.isPrecedenceRule 0 && !net.isPrecedenceRule 1) (by decide +kernel)
  obtain ⟨b, hb, hsize⟩ := ok_of_any (x := loadWords sumWords { bypass := true, optimize := false })
    (p := fun net => net.states.size == 23) (by decide +kernel)
  simp only [Bool.and_eq_true, Bool.not_eq_true', beq_iff_eq] at hd hprecedence hsize
  exact ⟨decoded, a, b, hdecode, ha, hb, hd.1, hprecedence.1, hprecedence.2, hsize,
    loadWords_conservative hdecode hd.2 rfl rfl ha hb⟩

end GrammarWalk
