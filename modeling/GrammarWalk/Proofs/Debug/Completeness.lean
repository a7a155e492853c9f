import GrammarWalk.Proofs.Debug.Mismatches
import GrammarWalk.Proofs.Debug.Returns
import GrammarWalk.Proofs.Load.Regular
import GrammarWalk.Proofs.Load.Unowned
import GrammarWalk.Proofs.Parse.Alternatives
import GrammarWalk.Proofs.Parse.Goes

/-! A parse of input that the grammar allows does not fail. What is left of the input leads from the
state of the parse through all the rules that it is inside of; every edge that it takes, every
alternative that it chooses and every return keeps that so. -/

namespace GrammarWalk

open Network Choice

namespace Tokens

variable {ts : Tokens} {v : Int} {u : List Int}

/-- The symbols are those ahead of the cursor, perhaps with the end of input behind them. -/
def Rest (ts : Tokens) (w : List Int) : Prop :=
  w = ts.typesFrom ts.position ∨ w = ts.typesFrom ts.position ++ [Symbol.eof]

theorem advance_of_end (hend : ts.ahead = Symbol.eof) : ts.advance = ts := if_pos (isEnd_iff.2 hend)

theorem typesFrom_advance (hend : ts.ahead ≠ Symbol.eof) :
    ts.advance.typesFrom ts.advance.position = ts.typesFrom (ts.position + 1) := by
  have hadvance : ts.advance = { ts with position := ts.nextRead (ts.position + 1) } :=
    if_neg (mt isEnd_iff.1 hend)
  rw [hadvance]
  exact (nextRead_spec ts _).2

theorem Ready.typesFrom_eq (h : ts.Ready) : ts.typesFrom ts.position =
    if ts.ahead = Symbol.eof then [] else ts.ahead :: ts.advance.typesFrom ts.advance.position := by
  rw [Tokens.typesFrom_eq h.last h.position]
  refine if_ctx_congr Iff.rfl (fun _ => rfl) fun hend => ?_
  rw [typesFrom_advance hend]
  rfl

/-- The first symbol is the type of the current token, and the others are ahead of the next. -/
theorem Rest.read (hr : ts.Ready) (h : ts.Rest (v :: u)) :
    v = ts.ahead ∧ ts.advance.Rest u ∧ (v = Symbol.eof ∨ v ∈ ts.typesFrom ts.position) := by
  have htypes := hr.typesFrom_eq
  rw [Rest, htypes] at h
  by_cases hend : ts.ahead = Symbol.eof
  · rw [if_pos hend] at h htypes
    obtain h | h := h
    · cases h
    · obtain ⟨rfl, rfl⟩ := List.cons.inj h
      rw [advance_of_end hend]
      exact ⟨hend.symm, .inl htypes.symm, .inl rfl⟩
  · rw [if_neg hend] at h htypes
    obtain h | h := h
    all_goals
      obtain ⟨rfl, rfl⟩ := List.cons.inj h
      refine ⟨rfl, ?_, .inr (htypes ▸ List.mem_cons_self)⟩
    · exact .inl rfl
    · exact .inr rfl

theorem Ready.typesFrom_advance_subset (h : ts.Ready) :
    ts.advance.typesFrom ts.advance.position ⊆ ts.typesFrom ts.position := by
  by_cases hend : ts.ahead = Symbol.eof
  · rw [advance_of_end hend]
    exact List.Subset.refl _
  · rw [h.typesFrom_eq, if_neg hend]
    exact List.subset_cons_self _ _

end Tokens

namespace Network

variable {net : Network} {view view' : State → List Edge} {cost : Call → Nat} {n s : Nat}
  {st : State} {legs : List Leg}
  {w : List Int}

theorem Chained.congr (h : net.Chained view cost legs w)
    (hruns : ∀ {n s t : Nat} {w : List Int}, net.Run view cost Symbol.minToken net.maxToken n s t
      w → net.Run view' cost Symbol.minToken net.maxToken n s t w) :
    net.Chained view' cost legs w := by
  induction h with
  | nil => exact .nil
  | cons hends _ ih =>
    obtain ⟨r, z, howner, hz, hrun⟩ := hends
    exact .cons ⟨r, z, howner, hz, hruns hrun⟩ ih

theorem Chained.leave (h : net.Chained view cost (⟨n, s⟩ :: legs) w)
    (hst : net.states[s]? = some st) (hstop : st.isRuleStop = true) :
    net.Chained view cost legs w := by
  cases h with
  | cons hends hrest =>
    obtain ⟨_, _, -, -, hrun⟩ := hends
    obtain ⟨-, rfl⟩ := hrun.of_stop hst hstop
    exact hrest

/-- The symbols lead on along the edge, within the rule of the first leg or into a rule that it
calls. -/
inductive Along (net : Network) (cost : Call → Nat) (n : Nat) (legs : List Leg) :
    List Int → Edge → Prop
  | silent {e : Edge} {w : List Int} : e.isSilent = true → e.call? = none →
      net.Chained State.edges cost (⟨n, e.target⟩ :: legs) w → Along net cost n legs w e
  | read {e : Edge} {v : Int} {w : List Int} : e.accepts v Symbol.minToken net.maxToken = true →
      net.Chained State.edges cost (⟨n, e.target⟩ :: legs) w → Along net cost n legs (v :: w) e
  | call {c : Call} {w : List Int} :
      net.Chained State.edges cost (⟨n, c.start⟩ :: ⟨n, c.follow⟩ :: legs) w →
      Along net cost n legs w (.call c)

theorem Chained.along (h : net.Chained State.edges cost (⟨n, s⟩ :: legs) w) (hseal : net.Sealed)
    (hst : net.states[s]? = some st) (hns : st.isRuleStop = false) :
    ∃ e ∈ st.edges, net.Along cost n legs w e := by
  cases h with
  | @cons _ _ u w hends hrest =>
    obtain ⟨r, z, howner, hz, hrun⟩ := hends
    rw [ownerOf_eq hst] at howner
    obtain ⟨e, he, ⟨hsilent, hcall, hrun⟩ | ⟨v, u, rfl, ha, hrun⟩ | ⟨c, m, y, u, u', rfl, rfl, hy,
        hm, hrun, hrun'⟩⟩ :=
      hrun.first hst hns
    all_goals
      have hinside := (hseal.inside hst hns he).1.trans howner
      refine ⟨_, he, ?_⟩
    · rw [Edge.onward_of_call?_eq_none hcall] at hinside
      exact .silent hsilent hcall (.cons ⟨r, z, hinside, hz, hrun⟩ hrest)
    · have hcall : e.call? = none := by cases e <;> first | rfl | cases ha
      rw [Edge.onward_of_call?_eq_none hcall] at hinside
      exact .read ha (.cons ⟨r, z, hinside, hz, hrun⟩ hrest)
    · have hstart := hseal.start (hseal.call hst he).2
      rw [List.append_assoc]
      have hroom : m ≤ n := Nat.le_of_add_right_le hm
      exact .call
        (.cons ⟨c.rule, y, hstart, hy, hrun.mono hroom⟩ (.cons ⟨r, z, hinside, hz, hrun'⟩ hrest))

/-- What a parse that starts with the rule `root` goes by: sealed rules without levels of
precedence, decisions that take no input, and lists for the search with the same runs as the raw
ones. -/
structure Predictable (net : Network) (root : Nat) : Prop extends Sealed net where
  inRange : net.InRange
  wired : net.Wired
  marks : net.MarksPrecedence
  plain : ∀ r, net.isPrecedenceRule r = false
  uncalled : ∀ {s : Nat} {st : State} {c : Call}, net.states[s]? = some st →
    .call c ∈ st.edges → c.rule ≠ root
  silent : ∀ {s : Nat} {st : State}, net.states[s]? = some st → 1 < st.edges.length →
    ∀ e ∈ st.edges, e.isSilent = true
  regular : net.Regular root net.charge
  levels : net.LevelsNonneg
  runs : ∀ {lo hi : Int} {n s t : Nat} {w : List Int},
    net.Run State.edges net.charge lo hi n s t w ↔ net.Run State.followed net.charge lo hi n s t w

theorem Predictable.chained_iff {root : Nat} (h : net.Predictable root) :
    net.Chained State.edges net.charge legs w ↔ net.Chained State.followed net.charge legs w :=
  ⟨fun hc => hc.congr h.runs.1, fun hc => hc.congr h.runs.2⟩

end Network

/-- A verified load gives such a network if that is trim in the states of the stream and, if it is
optimized, only return edges lead out of its rule stops. -/
theorem loadWords_predictable {words : List Wire.Word} {options : LoadOptions}
    {decoded net : Network} {root : Nat} (hverify : options.verify = true)
    (hload : loadWords words options = .ok net) (hdecode : Wire.decode words = .ok decoded)
    (ho : net.Trim decoded.states.size root)
    (hreturns : options.optimize = true → net.StopsReturn) : net.Predictable root := by
  obtain ⟨hregular, hlevels, hruns⟩ := loadWords_regular hload hdecode ho hreturns
  refine { ho.toSealed with
    inRange := loadWords_inRange hload, wired := (loadWords_wired hload).1
    marks := loadWords_marks hload
    plain := isPrecedenceRule_eq_false ho.plain, uncalled := ho.uncalled, regular := hregular
    levels := hlevels
    runs := hruns, silent := fun hst hseveral => loadWords_silent hverify hload hst ?_ hseveral }
  obtain ⟨r, hr, -⟩ := ho.owned hst
  exact hr ▸ Option.some_ne_none r

namespace Walker

variable {w w' : Walker} {root : Nat} {calls : List Taken} {st : State}

/-- The rules that the parse is inside of, innermost first, with room for as many calls as a choice
makes. -/
def legs (w : Walker) (calls : List Taken) : List Leg :=
  ⟨maxCalls, w.state⟩ :: calls.map fun t => ⟨maxCalls, t.call.follow⟩

/-- The parse has not failed, and what is left of the input leads to the end of the outermost
rule. -/
structure OnCourse (root : Nat) (w : Walker) (calls : List Taken) : Prop where
  inside : Inside w.net w calls
  running : w.finished = false
  clean : w.failures = []
  levels : w.levels = [0]
  ready : w.tokens.Ready
  types : ∀ v ∈ w.tokens.typesFrom w.tokens.position, w.net.IsToken v
  last : w.net.RootLast root (w.legs calls)
  ahead : ∃ rest, w.tokens.Rest rest ∧ w.net.Chained State.edges w.net.charge (w.legs calls) rest

namespace OnCourse

variable (h : OnCourse root w calls) (hp : w.net.Predictable root)
include h hp

theorem tracks : w.Tracks calls := (h.inside.tracks hp.wired hp.enclosed hp.marks).2

theorem stands :
    ∃ c l r, w.Stands c l r ∧ w.net.ownerOf w.state = some c.rule ∧
      Called w.net calls (c :: l) := by
  obtain ⟨c, l, ha, hcalled⟩ := (h.tracks hp).running h.running
  obtain ⟨r, hr⟩ := ha.stands
  exact ⟨c, l, r, hr, ha.state, hcalled⟩

theorem setting (st : State) :
    ∃ s : Setting, s.net = w.net ∧ s.tokens = w.tokens ∧ s.precedence = 0 ∧ s.InRange ∧
    s.outside s.follow.size = (calls.map fun t => ⟨maxCalls, t.call.follow⟩) ∧
    (1 < st.edges.length → w.chooseEdge st = choose s w.state) := by
  have hfollow := ((h.tracks hp).comesBack_of_callsAgree hp.callsAgree).follow
  obtain ⟨c, l, r, -, -, hcalled⟩ := h.stands hp
  let follow := calls.map fun t => t.call.follow
  have hmap : (calls.filterMap fun t => some t.call.follow) = follow :=
    congrFun (List.filterMap_eq_map (f := fun t : Taken => t.call.follow)) calls
  refine ⟨.mk w.net w.tokens follow.reverse.toArray w.level, rfl, rfl, ?_,
    ⟨hp.inRange, fun q hq => ?_⟩, ?_, fun hseveral => ?_⟩
  · simp [level, h.levels]
  · obtain ⟨t, ht, rfl⟩ : ∃ t ∈ calls, t.call.follow = q := by simpa [follow] using hq
    obtain ⟨st, hst, hk⟩ := hcalled.edge t ht
    exact ((hp.inRange.within hst).edges _ hk).2 _ rfl
  · have houtside :=
      outside_eq (s := .mk w.net w.tokens follow.reverse.toArray w.level) (l := follow)
      (show follow.reverse = follow.reverse ++ [] from (List.append_nil _).symm)
    have hsize : follow.reverse.toArray.size = follow.length := by simp
    rw [hsize, houtside, List.map_map]
    rfl
  · rw [chooseEdge, if_pos hseveral, hfollow, hmap]
    rfl

theorem chooses (hst : w.net.states[w.state]? = some st) (hns : st.isRuleStop = false) :
    ∃ number e rest,
    w.chooseEdge st = .ok (.ok number) ∧ st.edges[number - 1]? = some e ∧ w.tokens.Rest rest ∧
    w.net.Along w.net.charge maxCalls (calls.map fun t => ⟨maxCalls, t.call.follow⟩) rest e := by
  obtain ⟨rest, hrest, hchained⟩ := h.ahead
  obtain ⟨e, he, halong⟩ := hchained.along hp.toSealed hst hns
  obtain ⟨i, hi⟩ := List.getElem?_of_mem he
  rcases Nat.lt_or_ge 1 st.edges.length with hseveral | hone
  · -- a decision takes no input and makes no calls, and some alternative of it is viable
    have hsilent := hp.silent hst hseveral
    have hcall {e : Edge} (he : e ∈ st.edges) : e.call? = none := by
      by_contra hne
      obtain ⟨c, hc⟩ := Option.ne_none_iff_exists'.1 hne
      rw [Edge.call?_eq_some.1 hc] at he
      rw [(hp.call hst he).1] at hseveral
      exact Nat.lt_irrefl 1 hseveral
    obtain ⟨s, hnet, htokens, hprecedence, hrange, houtside, hchoose⟩ := h.setting hp st
    have hiff {j : Nat} {e : Edge} (hj : st.edges[j]? = some e) :
        Viable s (w.tokens.typesFrom w.tokens.position) (Choice.origin s w.state j) ↔
          ∃ rest, w.tokens.Rest rest ∧ w.net.Chained State.edges w.net.charge
            (⟨maxCalls, e.target⟩ :: calls.map fun t => ⟨maxCalls, t.call.follow⟩) rest := by
      have hmem := List.mem_of_getElem? hj
      have hcall := hcall hmem
      have howner : w.net.ownerOf e.target = w.net.ownerOf w.state := by
        rw [ownerOf_eq hst, ← (hp.inside hst hns hmem).1, Edge.onward_of_call?_eq_none hcall]
      have hlast : w.net.RootLast root
          (⟨maxCalls, e.target⟩ :: calls.map fun t => ⟨maxCalls, t.call.follow⟩) :=
        h.last.replace howner
      rw [← hnet] at hst
      rw [← hnet, ← houtside] at hlast
      rw [viable_origin_iff_chained (hnet ▸ hp.regular) hprecedence.le hst hns hsilent hj hcall
        (fun t level heq => hprecedence ▸ hp.levels.edges (hnet ▸ hst) e hmem t level heq) hlast,
        houtside, hnet]
      simp only [Tokens.Rest, exists_eq_or_imp, exists_eq_left, hp.chained_iff]
    obtain ⟨choice, hanswer, hleast, -⟩ :=
      returns_choose hrange (htokens ▸ h.ready) (hnet ▸ hst) hns hsilent
    obtain ⟨a, ⟨⟨j, hj, rfl, hviable⟩, -⟩, rfl⟩ :=
      hleast ⟨i + 1, i, (List.getElem?_eq_some_iff.1 hi).1, rfl, by
      rw [htokens, hiff hi]
      refine ⟨rest, hrest, ?_⟩
      cases halong with
      | silent _ _ hchained => exact hchained
      | read ha => exact absurd (Edge.isSilent_of_accepts ha) (by simp [hsilent _ he])
      | call => cases hcall he⟩
    have hj := List.getElem?_eq_getElem hj
    rw [htokens, hiff hj] at hviable
    obtain ⟨rest, hrest, hchained⟩ := hviable
    have hmem := List.mem_of_getElem? hj
    exact ⟨j + 1, _, rest, (hchoose hseveral).trans hanswer, hj, hrest,
      .silent (hsilent _ hmem) (hcall hmem) hchained⟩
  · -- a single edge is the one to take
    obtain rfl : i = 0 := by
      have := (List.getElem?_eq_some_iff.1 hi).1
      omega
    exact ⟨1, e, rest, if_neg (Nat.not_lt.2 hone), hi, hrest, halong⟩

theorem visits (hst : w.net.states[w.state]? = some st) (hns : st.isRuleStop = false) :
    ∃ w' calls', w.Move w' ∧ OnCourse root w' calls' := by
  obtain ⟨c, l, r, hstands, howner, -⟩ := h.stands hp
  obtain ⟨number, e, rest, hchoose, he, hrest, halong⟩ := h.chooses hp hst hns
  have hmem := List.mem_of_getElem? he
  have hinside := hp.inside hst hns hmem
  rw [← ownerOf_eq hst] at hinside
  have hkind (d : Decision) (loopback : Option Nat) : st.kind ≠ .starLoopEntry d loopback true :=
    fun hk => by
    obtain ⟨q, -, hq⟩ := Option.any_eq_true _ _ |>.1 (hp.marks _ _ _ _ hst hk)
    rw [hp.plain] at hq
    cases hq
  -- whatever the edge is, the calls that the parse is inside of are known
  have visited {v : Walker} (htaken : w.takeEdge st e = .ok (.ok v)) :
      w.Move { v with state := e.target } ∧
      Inside w.net { v with state := e.target }
      ((e.call?.map (Taken.mk w.state)).toList ++ calls) := by
    have hvisit := visit_of_takeEdge hst hchoose he htaken
    refine ⟨.visit hst hns hvisit, ?_⟩
    have hcalls := h.inside.visit h.running hst hns hvisit
    rwa [callTaken?_eq hst hchoose, he] at hcalls
  cases halong with
  | silent hsilent hcall hchained =>
    have hlevel (t : Nat) (level : Int) (heq : e = .precedence t level) : w.level ≤ level := by
      rw [Walker.level, h.levels]
      exact hp.levels.edges hst e hmem t level heq
    obtain ⟨hmove, hcalls⟩ := visited (takeEdge_of_silent hsilent hcall hlevel hkind)
    rw [hcall] at hcalls
    rw [Edge.onward_of_call?_eq_none hcall] at hinside
    exact ⟨_, calls, hmove, hcalls, h.running, h.clean, h.levels, h.ready, h.types,
      h.last.replace hinside.1, rest, hrest, hchained⟩
  | @read _ v u ha hchained =>
    have hcall : e.call? = none := by cases e <;> first | rfl | cases ha
    obtain ⟨rfl, hrest, hv⟩ := hrest.read h.ready
    have htoken : w.net.IsToken w.tokens.ahead := hv.elim .inl (h.types _)
    have hfits : e.fits w.tokens.ahead w.net.maxToken = true :=
      (Edge.fits_eq_accepts htoken e).trans ha
    obtain ⟨_, htaken, tree, rfl⟩ := returns_takeToken hstands.toIn (e.fits · w.net.maxToken) hfits
    rw [← takeEdge_of_not_isSilent (Edge.isSilent_of_accepts ha)] at htaken
    obtain ⟨hmove, hcalls⟩ := visited htaken
    rw [hcall] at hcalls
    rw [Edge.onward_of_call?_eq_none hcall] at hinside
    exact ⟨_, calls, hmove, hcalls, h.running, h.clean, h.levels, h.ready.advance, fun v hv =>
      h.types v (h.ready.typesFrom_advance_subset hv), h.last.replace hinside.1, u, hrest, hchained⟩
  | @call k _ hchained =>
    have hgoes : Returns (w.takeEdge st (.call k)) _ :=
      returns_takeEdge_call hstands.toIn (hp.plain k.rule)
    obtain ⟨_, htaken, tree, rfl⟩ := hgoes
    obtain ⟨hmove, hcalls⟩ := visited htaken
    have hstart := hp.start (hp.call hst hmem).2
    refine ⟨_, _, hmove, hcalls, h.running, h.clean, h.levels, h.ready, h.types,
      ⟨fun hroot => ?_, h.last.replace hinside.1⟩, rest, hrest, hchained⟩
    exact absurd (Option.some.inj (hstart.symm.trans hroot)) (hp.uncalled hst hmem)

/-- At the stop of a rule the parse returns and stays on course, or it comes to its end. -/
theorem leaves (hst : w.net.states[w.state]? = some st) (hstop : st.isRuleStop = true) :
    (∃ w', w.Move w' ∧ w'.finished = true ∧ w'.failures = []) ∨ ∃ w' calls', w.Move w' ∧
      OnCourse root w' calls' := by
  obtain ⟨c, l, r, hstands, howner, hcalled⟩ := h.stands hp
  have hroot := atRoot_eq hstands.toIn
  obtain ⟨rest, hrest, hchained⟩ := h.ahead
  have hback := (h.tracks hp).comesBack_of_callsAgree hp.callsAgree
  cases hcalled with
  | root hnone =>
    rw [hstands.invoking, hnone] at hroot
    obtain ⟨w', hfinish, hfinished, hfailures⟩ := returns_finishRoot hstands.toIn (hp.plain _)
    exact .inl ⟨w', .finish hst hstop hroot hfinish, hfinished, hfailures.trans h.clean⟩
  | @call t caller _ calls _ hinvoking _ hcaller hk =>
    rw [hstands.invoking, hinvoking] at hroot
    obtain ⟨w', hleave, tree, hw'⟩ :=
      returns_visitStop hstands.toIn hst (hp.plain _) (hstands.invoking.trans hinvoking)
      hcaller
    obtain ⟨_, _, heq, hstate⟩ := hback.leave st w' h.running hst hstop hroot hleave
    obtain ⟨rfl, rfl⟩ := List.cons.inj heq
    have hcalls := h.inside.leave h.running hst hstop hroot hleave
    have hstate : w'.state = t.call.follow := (Option.some.inj hstate).symm
    have hlegs : w'.legs calls = (t :: calls).map fun t => ⟨maxCalls, t.call.follow⟩ := by
      rw [legs, hstate]
      rfl
    have hlast := h.last.2
    have hchained := hchained.leave hst hstop
    rw [← hlegs] at hlast hchained
    subst hw'
    exact .inr ⟨_, calls, .leave hst hstop hroot hleave, hcalls, h.running, h.clean, h.levels,
      h.ready, h.types, hlast, rest, hrest, hchained⟩

end OnCourse

/-- The parse has not failed, and if it has not ended, what is left of the input leads to its
end. -/
structure Succeeds (root : Nat) (w : Walker) : Prop where
  clean : w.failures = []
  onCourse : w.finished = false → ∃ calls, OnCourse root w calls

theorem Succeeds.proceed (h : w.Succeeds root) (hp : w.net.Predictable root) :
    Returns w.proceed fun w' => w'.net = w.net ∧ w'.Succeeds root := by
  cases hf : w.finished with
  | true => exact ⟨w, if_pos hf, rfl, h⟩
  | false =>
    obtain ⟨calls, hcourse⟩ := h.onCourse hf
    have moved {w' : Walker} {calls' : List Taken} (hmove : w.Move w')
      (hcourse' : OnCourse root w' calls') :
        Returns w.proceed fun w' => w'.net = w.net ∧ w'.Succeeds root :=
      ⟨w', hmove.proceed hf, hmove.net, hcourse'.clean, fun _ => ⟨calls', hcourse'⟩⟩
    obtain ⟨_, _, _, -, howner, -⟩ := hcourse.stands hp
    obtain ⟨st, hst, -⟩ := Option.bind_eq_some_iff.1 howner
    cases hstop : st.isRuleStop with
    | true =>
      obtain ⟨w', hmove, hfinished, hclean⟩ | ⟨_, _, hmove, hcourse'⟩ := hcourse.leaves hp hst hstop
      · exact ⟨w', hmove.proceed hf, hmove.net, hclean,
          fun hnot => Bool.noConfusion (hfinished.symm.trans hnot)⟩
      · exact moved hmove hcourse'
    | false =>
      obtain ⟨_, _, hmove, hcourse'⟩ := hcourse.visits hp hst hstop
      exact moved hmove hcourse'

theorem Succeeds.proceedFor (n : Nat) : ∀ {w : Walker}, w.Succeeds root → w.net.Predictable root →
    Returns (proceedFor n w) fun w' => w'.failures = [] := by
  induction n with
  | zero => exact fun h _ => returns_pure h.clean
  | succ n ih =>
    intro w h hp
    refine (h.proceed hp).bind fun v hv => ?_
    exact ih hv.2 (hv.1 ▸ hp)

/-- At its start a parse is on course if the input leads from the start of its rule to the stop. -/
theorem succeeds_of_run {net : Network} {root start stop : Nat} {tokens : List Token}
    {input : List Int}
    (hp : net.Predictable root) (hstart : net.ruleStarts[root]? = some start)
    (hstop : net.ruleStops[root]? = some stop)
    (htypes : ∀ v ∈ (Tokens.ofList tokens).typesFrom (Tokens.ofList tokens).position, net.IsToken v)
    (hrest : (Tokens.ofList tokens).Rest input)
    (hrun :
      net.Run State.edges (fun _ => 1) Symbol.minToken net.maxToken maxCalls start stop input) :
    Returns (({ net, tokens := .ofList tokens } : Walker).enterRoot root) fun w => w.net = net ∧
    w.Succeeds root := by
  obtain ⟨_, henter, tree, rfl⟩ :=
    returns_enterRoot (w := { net, tokens := .ofList tokens }) hstart (hp.plain root)
  have howner := hp.start hstart
  have hchained : net.Chained State.edges net.charge [⟨maxCalls, start⟩] input :=
    List.append_nil input ▸ .cons ⟨root, stop, howner, hstop, hrun.cheaper charge_le⟩ .nil
  exact ⟨_, henter, rfl, rfl, fun _ => ⟨[], .enter henter, rfl, rfl, rfl,
    Tokens.ready_ofList tokens, htypes, ⟨fun _ => rfl, trivial⟩, input, hrest, hchained⟩⟩

end Walker

/--
A parse of what a network allows does not fail. Let the network be loaded with a check, and be trim
in the states of the stream; if it is optimized, let only return edges lead out of its rule stops.
And let the tokens on the default channel, perhaps with the end of input behind them, lead from the
start of rule `root` to its stop, with at most 512 calls within each other. Then after any number of
moves the parse is without fault and without failure, and a debugging session over these tokens has
no failure either, whatever it is asked.
-/
theorem Walker.parse_complete {words : List Wire.Word} {options : LoadOptions}
    {decoded net : Network} {root start stop : Nat} {tokens : List Token} {input : List Int}
    (hverify : options.verify = true) (hload : loadWords words options = .ok net)
    (hdecode : Wire.decode words = .ok decoded) (htrim : net.Trim decoded.states.size root)
    (hreturns : options.optimize = true → net.StopsReturn)
    (hstart : net.ruleStarts[root]? = some start) (hstop : net.ruleStops[root]? = some stop)
    (htypes : ∀ v ∈ (Tokens.ofList tokens).typesFrom (Tokens.ofList tokens).position,
      1 ≤ v ∧ v ≤ net.maxToken) (hinput : (Tokens.ofList tokens).Rest input)
    (hrun : net.Run State.edges (fun _ => 1) Symbol.minToken net.maxToken 512 start stop input) :
    (∀ n, ∃ w, parseFor net root n tokens = .ok w ∧ w.failures = []) ∧
    ∀ (s : Session) (text : String) (diagnostics : List Diagnostic)
    (requests : List Session.Request) (r : Session.Record),
      s.parser = net → Tokenizer.tokenize s.lexer text = .ok (tokens, diagnostics) →
      s.history root text requests = .ok r → r.session.failures = [] := by
  have hp := loadWords_predictable hverify hload hdecode htrim hreturns
  have hparse (n : Nat) : ∃ w, parseFor net root n tokens = .ok w ∧ w.failures = [] := by
    refine Returns.bind
      (succeeds_of_run hp hstart hstop (fun v hv => .inr (htypes v hv)) hinput hrun) fun w hw => ?_
    exact hw.2.proceedFor n (hw.1 ▸ hp)
  refine ⟨hparse, ?_⟩
  rintro s text diagnostics requests r rfl htokens hr
  obtain ⟨n, w, hw, hpoint⟩ := Session.history_parseFor hr htokens
  obtain ⟨_, hpoint', hclean⟩ := hparse n
  obtain rfl := Except.ok.inj (hpoint.symm.trans hpoint')
  rw [Session.failures, hw]
  exact hclean

namespace Wire

/-- A decision between a call of the rule that state 8 starts, which matches the symbol 1, and a
match of the symbol 2; behind both the end of input. -/
def callOrLetter : List Word :=
  parserWords [[2, 0], [3, 0, 4], [1, 0], [1, 0], [8, 0], [1, 0], [1, 0], [7, 0], [2, 1], [1, 1],
    [1, 1], [7, 1]] [0, 8]
    [eps 0 1, eps 1 2, eps 1 3, callOf 2 4 8 1, atom 3 4 2, eps 4 5, [5, 6, 5, 0, 0, 1], eps 6 7,
      eps 8 9, atom 9 10 1, eps 10 11] [1]

end Wire

open Wire in
/-- The symbol 1 and the end of input, through the call. -/
theorem Walker.parse_complete_callOrLetter :
    ∃ decoded net, Wire.decode callOrLetter = .ok decoded ∧
    loadWords callOrLetter {} = .ok net ∧ net.Trim decoded.states.size 0 ∧ net.StopsReturn ∧
    net.Run State.edges (fun _ => 1) Symbol.minToken net.maxToken 512 0 7 [1, Symbol.eof] ∧
    ∀ n, ∃ w, parseFor net 0 n [{ (default : Token) with type := 1 }] = .ok w ∧
    w.failures = [] := by
  obtain ⟨decoded, hdecode, hsize⟩ :=
    ok_of_any (x := Wire.decode callOrLetter) (p := fun net => net.states.size == 12)
    (by decide +kernel)
  obtain ⟨net, hload, hp⟩ := loadWords_of_unroll callOrLetter (p := fun net =>
    (decide (net.TrimWith 12 0 [6, 7]) && decide net.StopsReturn && net.maxToken == 3) &&
    (net.ruleStarts[0]? == some 0 && net.ruleStops[0]? == some 7) &&
    (net.hops 0 1 && net.hops 1 2 && net.calls 8 11 2 4 && net.hops 4 5 &&
    net.shifts Symbol.minToken 3 Symbol.eof 5 6 && net.hops 6 7 &&
    net.states[7]?.any State.isRuleStop) && (net.hops 8 9 && net.shifts Symbol.minToken 3 1 9 10 &&
    net.hops 10 11 && net.states[11]?.any State.isRuleStop)) 3
    (by decide +kernel)
  simp only [Bool.and_eq_true, decide_eq_true_eq, beq_iff_eq] at hp
  obtain ⟨⟨⟨⟨⟨htrim, hreturns⟩, hmax⟩, hstart, hstop⟩, ⟨⟨⟨⟨⟨h₀, h₁⟩, h₂⟩, h₄⟩, h₅⟩, h₆⟩, h₇⟩,
    ⟨⟨h₈, h₉⟩, h₁₀⟩, h₁₁⟩ := hp
  have hrun : net.Run State.edges (fun _ => 1) Symbol.minToken net.maxToken 512 0 7
      [1, Symbol.eof] := by
    rw [hmax]
    have hcalled : net.Run State.edges (fun _ => 1) Symbol.minToken 3 511 8 11 [1] :=
      run_hop h₈ (run_match h₉ (run_hop h₁₀ (run_stop h₁₁)))
    exact run_hop h₀ (run_hop h₁ (run_call h₂ (fun _ => Nat.le_refl _) hcalled
      (run_hop h₄ (run_match h₅ (run_hop h₆ (run_stop h₇))))))
  have htrim : net.Trim decoded.states.size 0 := eq_of_beq hsize ▸ htrim.trim
  exact ⟨decoded, net, hdecode, hload, htrim, hreturns, hrun,
    (parse_complete rfl hload hdecode htrim (fun _ => hreturns) hstart hstop
    (by rw [hmax]; decide +kernel)
      (.inr (by decide +kernel)) hrun).1⟩

/-- In a trim network a rule stop may have a match of its own. The branch into it is then merged
with a match, and the parse of a word that the raw edges allow, here the empty one, finds no
alternative. -/
theorem Walker.parse_incomplete_mergedStop : ∃ decoded net, Wire.decode mergedStop = .ok decoded ∧
    loadWords mergedStop {} = .ok net ∧ net.Trim decoded.states.size 0 ∧ net.StaysInRules ∧
    net.ruleStarts[0]? = some 0 ∧ net.ruleStops[0]? = some 7 ∧
    net.Run State.edges (fun _ => 1) Symbol.minToken net.maxToken 512 0 7 [] ∧
    ∃ w, parseFor net 0 2 [] = .ok w ∧ w.failures = [.noAlternative 1 0 0] := by
  obtain ⟨decoded, hdecode, hsize⟩ :=
    ok_of_any (x := Wire.decode mergedStop) (p := fun net => net.states.size == 8)
    (by decide +kernel)
  obtain ⟨net, hload, hp⟩ := loadWords_of_unroll mergedStop
    (p := fun net => decide (net.TrimWith 8 0 []) &&
    decide net.StaysInRules && (net.ruleStarts[0]? == some 0 && net.ruleStops[0]? == some 7) &&
    (net.hops 0 1 && net.hops 1 2 && net.hops 2 7 && net.states[7]?.any State.isRuleStop) &&
    (parseFor net 0 2 []).toOption.any (·.failures == [.noAlternative 1 0 0])) 3 (by decide +kernel)
  simp only [Bool.and_eq_true, decide_eq_true_eq, beq_iff_eq] at hp
  obtain ⟨⟨⟨⟨htrim, hstays⟩, hstart, hstop⟩, ⟨⟨hfirst, hsecond⟩, hthird⟩, hend⟩, hparse⟩ := hp
  obtain ⟨w, hw, hfailures⟩ := ok_of_any hparse
  exact ⟨decoded, net, hdecode, hload, eq_of_beq hsize ▸ htrim.trim, hstays, hstart, hstop,
    run_hop hfirst (run_hop hsecond (run_hop hthird (run_stop hend))), w, hw, eq_of_beq hfailures⟩

end GrammarWalk
