import GrammarWalk.Proofs.Load.Unowned
import GrammarWalk.Proofs.Load.Untouched
import GrammarWalk.Proofs.Tokenizer.Match
import GrammarWalk.Proofs.Tokenizer.Tuning

/-! An optimization is invisible to tokenizing: the optimized network of a lexer cuts texts into the
same tokens as the network that is not optimized. The flags of tail calls, in which the two differ
besides, are nothing to a lexer. -/

namespace GrammarWalk

open Network Relation

/-- The edge without the flags of a call. -/
def Edge.unflagged : Edge → Edge
  | .call c => .call { c with tail := false, optimizedTail := false }
  | e => e

/-- The state without the flags of its calls, with the list written out that is followed. -/
def State.unflagged (st : State) : State :=
  { st with
    edges := st.edges.map Edge.unflagged, optimized := some (st.followed.map Edge.unflagged) }

/-- The network without the flags of its calls, with the lists written out that are followed. -/
def Network.unflagged (net : Network) : Network :=
  { net with states := net.states.map State.unflagged }

variable {net a b : Network} {s : Nat} {st : State} {e e' : Edge} {c : Call}

section unflagged

namespace Edge

theorem target_unflagged : e.unflagged.target = e.target := by cases e <;> rfl

theorem onward_unflagged : e.unflagged.onward = e.onward := by cases e <;> rfl

theorem isSilent_unflagged : e.unflagged.isSilent = e.isSilent := by cases e <;> rfl

theorem isEpsilon_unflagged : e.unflagged.isEpsilon = e.isEpsilon := by cases e <;> rfl

theorem matchesOrCalls_unflagged : e.unflagged.matchesOrCalls = e.matchesOrCalls := by
  cases e <;> rfl

theorem accepts_unflagged {v lo hi : Int} : e.unflagged.accepts v lo hi = e.accepts v lo hi := by
  cases e <;> rfl

theorem unflagged_of_judged (h : Judged e e') : e'.unflagged = e.unflagged := by
  obtain rfl | ⟨c, _, _, rfl, rfl⟩ := h <;> rfl

theorem eq_of_unflagged (h : e.unflagged = e'.unflagged) (hcall : e'.call? = none) : e = e' := by
  cases e' with
  | call => cases hcall
  | _ =>
    cases e with
    | call => cases h
    | _ => exact h

theorem call_of_unflagged (h : e.unflagged = (call c).unflagged) :
    ∃ d, e = .call d ∧ d.start = c.start ∧ d.rule = c.rule ∧ d.follow = c.follow := by
  cases e with
  | call d =>
    simp only [unflagged, call.injEq, Call.mk.injEq] at h
    exact ⟨d, rfl, h.1, h.2.1, h.2.2.2.1⟩
  | _ => cases h

end Edge

namespace State

theorem isRuleStop_unflagged : st.unflagged.isRuleStop = st.isRuleStop := rfl

theorem isNonGreedy_unflagged : st.unflagged.isNonGreedy = st.isNonGreedy := rfl

theorem followed_unflagged : st.unflagged.followed = st.followed.map Edge.unflagged := rfl

theorem isSilent_unflagged : st.unflagged.isSilent = st.isSilent := by
  have hall : (st.edges.map Edge.unflagged).all Edge.isSilent = st.edges.all Edge.isSilent := by
    rw [List.all_map]
    exact congrArg st.edges.all (funext fun _ => Edge.isSilent_unflagged)
  rw [isSilent, isSilent, unflagged, hall, List.isEmpty_map]

end State

namespace Network

theorem getElem?_unflagged : net.unflagged.states[s]? = net.states[s]?.map State.unflagged :=
  Array.getElem?_map ..

theorem unflagged_ensureOptimized :
    unflagged { net with states := net.states.map State.ensureOptimized } = net.unflagged := by
  rw [unflagged, Array.map_map]
  rfl

theorem JudgedState.unflagged_eq {st' : State} (h : JudgedState st st') :
    st'.unflagged = st.unflagged := by
  have map_eq {es es' : List Edge} (hes : List.Forall₂ Judged es es') :
      es'.map Edge.unflagged = es.map Edge.unflagged := by
    induction hes with
    | nil => rfl
    | cons he _ ih => rw [List.map_cons, List.map_cons, ih, Edge.unflagged_of_judged he]
  rw [State.unflagged, State.unflagged, map_eq h.edges, map_eq h.followed, h.rest]

theorem unflagged_withTailCalls (hn : net.withTailCalls = .ok b) : b.unflagged = net.unflagged := by
  have hstates : b.states.map State.unflagged = net.states.map State.unflagged := by
    refine Array.ext (by simp [size_withTailCalls hn]) fun s hs hs' => ?_
    rw [Array.size_map] at hs
    obtain ⟨st, hst, hj⟩ := judged_of_getElem? hn (Array.getElem?_eq_getElem hs)
    rw [Array.getElem_map, Array.getElem_map, hj.unflagged_eq,
      ((Array.getElem?_eq_some_iff.1 hst).2)]
  rw [unflagged, unflagged, hstates, (withTailCalls_eq_ok hn).1]

section same

variable (h : a.unflagged = b.unflagged)
include h

theorem tables_of_unflagged : b = { a with states := b.states } :=
  congrArg (fun net : Network => { net with states := b.states }) h.symm

theorem exists_unflagged (hst : b.states[s]? = some st) :
    ∃ old, a.states[s]? = some old ∧ old.unflagged = st.unflagged := by
  have hs : a.unflagged.states[s]? = b.unflagged.states[s]? := by rw [h]
  rw [getElem?_unflagged, getElem?_unflagged, hst, Option.map_some, Option.map_eq_some_iff] at hs
  exact hs

/-- A view of a network shows the same edges of a state of the other one, but for the flags. -/
theorem exists_unflagged_edge (view : State → List Edge)
    (hview : ∀ st, view st.unflagged = (view st).map Edge.unflagged) (hst : b.states[s]? = some st)
    (he : e ∈ view st) :
    ∃ old e', a.states[s]? = some old ∧ old.rule = st.rule ∧
      old.isRuleStop = st.isRuleStop ∧ e' ∈ view old ∧ e'.unflagged = e.unflagged := by
  obtain ⟨old, hold, heq⟩ := exists_unflagged h hst
  have hmem : e.unflagged ∈ view old.unflagged := by
    rw [heq, hview]
    exact List.mem_map_of_mem he
  rw [hview] at hmem
  obtain ⟨e', he', hsame⟩ := List.mem_map.1 hmem
  exact ⟨old, e', hold, (congrArg State.rule heq :), (congrArg State.isRuleStop heq :), he', hsame⟩

theorem ownerOf_of_unflagged : a.ownerOf s = b.ownerOf s := by
  have rule (net : Network) : net.unflagged.ownerOf s = net.ownerOf s := by
    rw [ownerOf, ownerOf, getElem?_unflagged]
    cases net.states[s]? <;> rfl
  rw [← rule, h, rule]

theorem slip_of_unflagged {p q : Spot} (hp : b.Slip State.followed Shallow p q) :
    a.Slip State.followed Shallow p q := by
  cases hp with
  | back hst hstop =>
    obtain ⟨old, hold, heq⟩ := exists_unflagged h hst
    exact .back hold ((congrArg State.isRuleStop heq).trans hstop)
  | enter hst hns hc hroom =>
    obtain ⟨old, e, hold, -, hkind, he, hcall⟩ :=
      exists_unflagged_edge h State.followed (fun _ => rfl) hst hc
    obtain ⟨d, rfl, hstart, -, hfollow⟩ := Edge.call_of_unflagged hcall
    rw [← hstart, ← hfollow]
    exact .enter hold (hkind.trans hns) he hroom
  | silent hst hns he hsilent hcall =>
    obtain ⟨old, e, hold, -, hkind, he', hsame⟩ :=
      exists_unflagged_edge h State.followed (fun _ => rfl) hst he
    obtain rfl := Edge.eq_of_unflagged hsame hcall
    exact .silent hold (hkind.trans hns) he' hsilent hcall

theorem actionsAdvance_of_unflagged (ha : a.ActionsAdvance) : b.ActionsAdvance := by
  intro s target rule st index contextual hst hns hmem hpath
  obtain ⟨old, e, hold, -, hkind, he, hsame⟩ :=
    exists_unflagged_edge h State.followed (fun _ => rfl) hst hmem
  obtain rfl := Edge.eq_of_unflagged hsame rfl
  exact ha hold (hkind.trans hns) he (ReflTransGen.mono (fun _ _ => slip_of_unflagged h) _ _ hpath)

theorem onward_of_unflagged {t : Nat} (ho : b.Onward State.edges s t) :
    a.Onward State.edges s t := by
  obtain ⟨st, hst, hns, e, he, rfl⟩ := ho
  obtain ⟨old, e', hold, -, hkind, he', hsame⟩ :=
    exists_unflagged_edge h State.edges (fun _ => rfl) hst he
  refine ⟨old, hold, hkind.trans hns, e', he', ?_⟩
  rw [← Edge.onward_unflagged, hsame, Edge.onward_unflagged]

theorem secluded_of_unflagged (ha : a.Secluded) : b.Secluded := by
  have tables := tables_of_unflagged h
  refine ⟨fun {s st c} hst hc => ?_, fun r s t ho hs => ?_, fun {s st e} hst hstop he => ?_,
    fun {s st} hst hnone e he => ?_, fun {s st r} hst hr => ?_⟩
  · obtain ⟨old, e, hold, -, -, he, hsame⟩ :=
      exists_unflagged_edge h State.edges (fun _ => rfl) hst hc
    obtain ⟨d, rfl, hstart, hrule, -⟩ := Edge.call_of_unflagged hsame
    rw [tables, ← hstart, ← hrule]
    exact ha.calls hold he
  · rw [← ownerOf_of_unflagged h] at hs ⊢
    exact ha.inside r (onward_of_unflagged h ho) hs
  · obtain ⟨old, e', hold, hrule, hkind, he', hsame⟩ :=
      exists_unflagged_edge h State.edges (fun _ => rfl) hst he
    rw [← ownerOf_of_unflagged h, ← Edge.onward_unflagged, ← hsame, Edge.onward_unflagged, ← hrule,
      ← Edge.isEpsilon_unflagged, ← hsame, Edge.isEpsilon_unflagged, ← Edge.target_unflagged,
      ← hsame, Edge.target_unflagged]
    obtain hin | ⟨hepsilon, t, caller, c, ht, hc, hfollow⟩ := ha.stops hold (hkind.trans hstop) he'
    · exact .inl hin
    obtain ⟨caller', f, ht', -, -, hf, hcall⟩ :=
      exists_unflagged_edge h.symm State.edges (fun _ => rfl) ht hc
    obtain ⟨d, rfl, -, -, hsame⟩ := Edge.call_of_unflagged hcall
    exact .inr ⟨hepsilon, t, caller', d, ht', hf, hsame.trans hfollow⟩
  · obtain ⟨old, e', hold, hrule, -, he', hsame⟩ :=
      exists_unflagged_edge h State.edges (fun _ => rfl) hst he
    rw [← Edge.matchesOrCalls_unflagged, ← hsame, Edge.matchesOrCalls_unflagged]
    exact ha.outside hold (hrule.trans hnone) e' he'
  · obtain ⟨old, hold, heq⟩ := exists_unflagged h hst
    obtain ⟨start, hstart, hleads⟩ := ha.reached hold ((congrArg State.rule heq).trans hr)
    refine ⟨start, by rw [tables]; exact hstart, ?_⟩
    exact ReflTransGen.mono (fun _ _ => onward_of_unflagged h.symm) _ _ hleads

end same

end Network

end unflagged

namespace Tokenizer

theorem along_unflagged {t : Thread} {mark : Bool} : t.along mark e.unflagged = t.along mark e := by
  cases e <;> rfl

theorem machine_unflagged : machine net.unflagged = machine net := by
  have stop {t : Thread} : Accepting net.unflagged t ↔ Accepting net t := by
    rw [Accepting, Accepting, getElem?_unflagged]
    cases net.states[t.state]? <;> simp [State.isRuleStop_unflagged]
  have hwaits : Waits net.unflagged = Waits net := by
    funext t
    rw [Waits, Waits, stop, getElem?_unflagged]
    cases net.states[t.state]? <;> simp [State.isRuleStop_unflagged, State.isSilent_unflagged]
  have hmark : nonGreedyAt net.unflagged = nonGreedyAt net := by
    funext s
    rw [nonGreedyAt, nonGreedyAt, getElem?_unflagged]
    cases net.states[s]? <;> rfl
  have hahead : ahead net.unflagged = ahead net := by
    funext t
    rw [ahead, ahead, getElem?_unflagged, hmark]
    cases net.states[t.state]? with
    | none => rfl
    | some st =>
      simp only [Option.map_some, State.isRuleStop_unflagged, State.followed_unflagged,
        List.filterMap_map, Function.comp_def, Edge.target_unflagged, along_unflagged]
  have hsends : sends net.unflagged = sends net := by
    funext symbol t
    rw [sends, sends, getElem?_unflagged]
    cases net.states[t.state]? with
    | none => rfl
    | some st =>
      simp only [Option.map_some, State.isRuleStop_unflagged, State.followed_unflagged,
        List.filter_map, List.map_map, Function.comp_def, Edge.target_unflagged,
        Edge.accepts_unflagged]
  have hroots : roots net.unflagged = roots net := by
    funext mode
    rw [roots, roots, show net.unflagged.modes = net.modes from rfl]
    cases net.modes[mode]? with
    | none => rfl
    | some s =>
      rw [Option.bind_some, Option.bind_some, getElem?_unflagged]
      cases net.states[s]? with
      | none => rfl
      | some st =>
        show ((st.edges.map Edge.unflagged).zipIdx.map _ : List Thread) = _
        rw [List.zipIdx_map, List.map_map]
        simp [Edge.target_unflagged, State.isNonGreedy_unflagged]
  rw [machine, machine, graph, graph, hahead, hwaits, hsends, hroots,
    funext fun t => propext (@stop t)]

section cuts

variable (h : a.unflagged = b.unflagged)
include h

theorem agree_of_unflagged :
    Agree a b (machine a) (fun _ => True) (fun _ => True) (fun _ => False) id fun _ => 0 where
  left := .refl _
  right := by
    rw [← machine_unflagged, ← h, machine_unflagged]
    exact .refl _
  leftEnds _ _ _ := rfl
  rightEnds _ _ _ := rfl
  owner _ _ := ownerOf_of_unflagged h
  refused t _ := fun ⟨hdeep, st, c, hst, hns, hc⟩ => ⟨id, fun u _ _ heq => by
    obtain rfl := heq
    obtain ⟨old, e, hold, -, hkind, he, hcall⟩ :=
      exists_unflagged_edge h State.followed (fun _ => rfl) hst hc
    obtain ⟨d, rfl, -⟩ := Edge.call_of_unflagged hcall
    exact ⟨hdeep, old, d, hold, hkind.trans hns, he⟩⟩
  tables := tables_of_unflagged h

theorem runs_of_unflagged (hw : b.Wired) (ha : Runs a) (hadvance : a.ActionsAdvance) : Runs b where
  wired := hw
  closes := closes_of_actionsAdvance hw (actionsAdvance_of_unflagged h hadvance)
  single hst hns hloud := by
    obtain ⟨old, hold, heq⟩ := exists_unflagged h hst
    have hlength := congrArg (List.length ∘ State.followed) heq
    rw [Function.comp_apply, Function.comp_apply, State.followed_unflagged,
      State.followed_unflagged, List.length_map, List.length_map] at hlength
    refine hlength ▸ ha.single hold ((congrArg State.isRuleStop heq).trans hns) ?_
    rw [← State.isSilent_unflagged, heq, State.isSilent_unflagged, hloud]

theorem cutsAlike_of_unflagged (ha : Runs a) (hb : Runs b) : CutsAlike a b :=
  (agree_of_unflagged h).cutsAlike ha hb

end cuts

section loads

variable {plain opt fast : Network}

/-- A lexer whose rules keep to themselves cuts texts in the same way when it is optimized. -/
theorem cutsAlike_of_optimize (hd : net.Draft) (hsize : net.ruleStops.size = net.ruleStarts.size)
    (hkind : net.kind = .lexer) (hl : net.Linear) (he : net.Secluded) (hret : net.Returning)
    (hadvance : net.ActionsAdvance) (hplain : net.withTailCalls = .ok plain) {changes : Changes}
    (hopt : net.optimize = .ok (changes, opt)) (hfast : opt.withTailCalls = .ok fast) :
    CutsAlike plain fast := by
  have hrange := hd.toWired.inRange hsize.ge
  have htuned := hd.tuned hkind hl he
  have hadvance : ActionsAdvance { net with states := net.states.map State.ensureOptimized } :=
    actionsAdvance_of_unflagged unflagged_ensureOptimized.symm hadvance
  have hruns := runs_of_tuned htuned hadvance
  have hsame := unflagged_ensureOptimized.trans (unflagged_withTailCalls hplain).symm
  have hstart : Kept net plain { net with states := net.states.map State.ensureOptimized } := {
    toTuned := htuned
    ready := hrange.ensureOptimized
    advance := hadvance
    cuts := cutsAlike_of_unflagged hsame.symm
      (runs_of_unflagged hsame (hd.toWired.withTailCalls hplain) hruns hadvance)
      hruns }
  have hkept : Kept net plain opt :=
    optimize_of_rounds hstart (fun h => h.optimizeOnce hd.toWired he hret) hopt
  have hopt := runs_of_tuned hkept.toTuned hkept.advance
  have hsame := (unflagged_withTailCalls hfast).symm
  exact hkept.cuts.trans <| cutsAlike_of_unflagged hsame hopt <|
    runs_of_unflagged hsame (hkept.wired.withTailCalls hfast) hopt hkept.advance

theorem linear_of_checked (hc : net.Checked) (hinvalid : net.InvalidUnowned) (he : net.Secluded)
    (hgreedy : ∀ {s : Nat} {st : State}, net.states[s]? = some st → st.edges.length = 1 →
      st.isNonGreedy = false) : net.Linear where
  loud {s st} hst hloud := by
    by_contra hlong
    by_cases hkind : st.kind = .invalid
    · -- a state that is not checked has no rule, so it neither matches nor calls
      have hrule : st.rule = none := by
        by_contra hrule
        exact hinvalid.kind_ne hst hrule hkind
      have hsilent : st.isSilent = true := by
        rw [State.isSilent, Bool.and_eq_true, Bool.not_eq_true', List.isEmpty_eq_false_iff,
          List.all_eq_true]
        refine ⟨List.ne_nil_of_length_pos (by omega), fun e hmem => ?_⟩
        have hquiet := he.outside hst hrule e hmem
        cases e <;> first | rfl | cases hquiet
      rw [hsilent] at hloud
      cases hloud
    · rw [hc.silent hst hkind (by omega)] at hloud
      cases hloud
  basic {s st} hst hkind := by
    by_contra hlong
    obtain hdecides | hstop := hc.branches hst (by simp [hkind]) (by omega)
    · rw [hkind] at hdecides
      cases hdecides
    · rw [State.isRuleStop, hkind] at hstop
      cases hstop
  greedy := hgreedy

/-- The load of a lexer that is not optimized: its network is decoded and checked, and its tail
calls are judged. -/
theorem loadWords_lexer {words : List Wire.Word} {bypass : Bool}
    (hload : loadWords words { bypass, optimize := false } = .ok plain)
    (hkind : plain.kind = .lexer) :
    ∃ decoded, Wire.decode words = .ok decoded ∧ decoded.kind = .lexer ∧ decoded.check = .ok () ∧
      decoded.withTailCalls = .ok plain := by
  obtain ⟨decoded, bypassed, optimized, hdecode, hbypass, hopt, hcheck, htails⟩ :=
    loadWords_passes hload
  obtain ⟨-, rfl⟩ | ⟨hopt, -⟩ := hopt
  · rw [(withTailCalls_eq_ok htails).1] at hkind
    obtain ⟨-, rfl⟩ | ⟨⟨-, hparser⟩, hbypass⟩ := hbypass
    · exact ⟨_, hdecode, hkind, hcheck rfl, htails⟩
    · rw [(extended_withBypasses (Wire.decode_keeps hdecode).1 hbypass).tables] at hkind
      rw [show decoded.kind = .lexer from hkind] at hparser
      cases hparser
  · cases hopt

theorem exists_optimized {words : List Wire.Word} {bypass : Bool}
    (hload : loadWords words { bypass, optimize := false } = .ok plain)
    (hkind : plain.kind = .lexer) :
    ∃ decoded changes opt fast, Wire.decode words = .ok decoded ∧ decoded.kind = .lexer ∧
      decoded.check = .ok () ∧ decoded.withTailCalls = .ok plain ∧
      decoded.optimize = .ok (changes, opt) ∧ opt.withTailCalls = .ok fast ∧
      loadWords words { bypass, optimize := true } = .ok fast := by
  obtain ⟨decoded, hdecode, hlexer, hcheck, htails⟩ := loadWords_lexer hload hkind
  obtain ⟨hd, hsize⟩ := Wire.decode_keeps hdecode
  have hrange := hd.toWired.inRange hsize.ge
  obtain ⟨⟨changes, opt⟩, hopt, hready, -⟩ := optimize_returns hrange
  obtain ⟨fast, hfast, -⟩ := returns_withTailCalls hready.toInRange
  have hagain : opt.check = .ok () :=
    ((Untouched.optimize hrange hopt).check_eq hrange).trans hcheck
  refine ⟨decoded, changes, opt, fast, hdecode, hlexer, hcheck, htails, hopt, hfast, ?_⟩
  simp [loadWords, hdecode, prepare, hlexer, hcheck, hopt, hagain, hfast, bind_eq_ok,
    liftM_fault_eq_ok]

/--
An optimization is invisible to tokenizing. The network of a checked lexer loads with an
optimization as without one, and the two cut every text into the same tokens, with the same
diagnostics, for which no call is too deep. This is so if rules keep to themselves, no action is met
again without input, and a state without a choice does not prefer the shorter match.
-/
theorem tokenize_optimized {words : List Wire.Word} {bypass : Bool}
    (hload : loadWords words { bypass, optimize := false } = .ok plain)
    (hkind : plain.kind = .lexer) (hrules : plain.Secluded)
    (hgreedy : ∀ {s : Nat} {st : State}, plain.states[s]? = some st → st.edges.length = 1 →
      st.isNonGreedy = false) (hadvance : plain.ActionsAdvance) :
    ∃ fast, loadWords words { bypass, optimize := true } = .ok fast ∧
      ∀ input, AllRoomy plain input →
      tokenize fast input = tokenize plain input ∧
      (0 < plain.modes.size → ∃ tokens diagnostics, tokenize plain input =
      .ok (tokens, diagnostics)) := by
  obtain ⟨decoded, changes, opt, fast, hdecode, hlexer, hcheck, htails, hopt, hfast, hagain⟩ :=
    exists_optimized hload hkind
  obtain ⟨hd, hsize⟩ := Wire.decode_keeps hdecode
  have hflags := unflagged_withTailCalls htails
  have he := secluded_of_unflagged hflags hrules
  have hl := linear_of_checked (.of_check hcheck) (Wire.decode_invalidUnowned hdecode) he
      fun {s st} hst hone => by
    obtain ⟨old, hold, heq⟩ := exists_unflagged hflags hst
    have hlength : old.unflagged.edges.length = st.unflagged.edges.length := by rw [heq]
    rw [State.unflagged, State.unflagged, List.length_map, List.length_map] at hlength
    rw [← State.isNonGreedy_unflagged, ← heq, State.isNonGreedy_unflagged]
    exact hgreedy hold (hlength.trans hone)
  have hret : decoded.Returning := he.returning hd.toWired hsize (Wire.decode_callsReturn hdecode)
  have hcuts := cutsAlike_of_optimize hd hsize hlexer hl he hret
    (actionsAdvance_of_unflagged hflags hadvance) htails hopt
    hfast
  refine ⟨fast, hagain, fun input hroom => ⟨(hcuts input hroom).1, fun hmodes => ?_⟩⟩
  obtain ⟨tokens, diagnostics, htokens, -⟩ := tokenize_returns hload hkind hmodes hadvance input
  exact ⟨tokens, diagnostics, htokens⟩

end loads

section fixed

open Wire

theorem secluded_of_states (hcalls : net.CallsEnterRules)
    (hinside : ∀ st ∈ net.states.toList, st.isRuleStop = false → ∀ r ∈ st.rule, ∀ e ∈ st.edges,
      net.ownerOf e.onward = some r)
    (hstops : ∀ st ∈ net.states.toList, st.isRuleStop = true → ∀ e ∈ st.edges,
      net.ownerOf e.onward = st.rule ∨ e.isEpsilon = true ∧ ∃ caller ∈ net.states.toList,
      ∃ e' ∈ caller.edges, ∃ c ∈ e'.call?, c.follow = e.target)
    (houtside : ∀ st ∈ net.states.toList, st.rule = none → ∀ e ∈ st.edges, e.matchesOrCalls = false)
    (hreached : net.ReachedInOrder) : net.Secluded where
  calls := hcalls
  inside := keepsTo_of_states hinside
  stops hst hstop he := by
    obtain hin | ⟨hepsilon, caller, hcaller, e', he', c, hc, hfollow⟩ :=
      forall_getElem?_iff.2 hstops hst hstop _ he
    · exact .inl hin
    · obtain ⟨t, ht⟩ := Array.mem_iff_getElem?.1 (Array.mem_toList_iff.1 hcaller)
      exact .inr ⟨hepsilon, t, caller, c, ht, Edge.call?_eq_some.1 hc ▸ he', hfollow⟩
  outside := forall_getElem?_iff.2 houtside
  reached := hreached.reached

theorem allRoomy_of_states (depths : List Nat) (hw : net.Wired) (hadvance : net.ActionsAdvance)
    (hsingle : ∀ st ∈ net.states.toList, st.isRuleStop = false → st.isSilent = false →
      st.followed.length ≤ 1)
    (hdepths : ∀ st ∈ net.states.toList, st.isRuleStop = false → ∀ e ∈ st.followed,
      depths.getD e.onward 0 ≤ depths.getD st.number 0 ∧
      ∀ c ∈ e.call?, depths.getD c.start 0 < depths.getD st.number 0)
    (hbound : ∀ d ∈ depths, d ≤ maxCalls) (input : String) : AllRoomy net input := by
  have hruns : Runs net :=
    ⟨hw, closes_of_actionsAdvance hw hadvance, fun hst => forall_getElem?_iff.2 hsingle hst⟩
  have hgraded : Graded net (depths.getD · 0) := {
    along := fun hst hns he => hw.number hst ▸ (forall_getElem?_iff.2 hdepths hst hns _ he).1
    call := fun hst hns he => hw.number hst ▸ (forall_getElem?_iff.2 hdepths hst hns _ he).2 _ rfl }
  refine hgraded.allRoomy hruns (fun s => ?_) input
  rw [List.getD_eq_getElem?_getD]
  cases hs : depths[s]? with
  | none => exact Nat.zero_le _
  | some d => exact hbound d (List.mem_of_getElem? hs)

/-- A rule of digits, each of which is matched by a call of another rule, and one of blanks, which
are skipped. -/
def digits : List Word :=
  lexerWords
    [[6, 0xFFFF], [2, 0], [1, 0], [11, 0], [7, 0], [2, 1], [1, 1], [1, 1], [7, 1], [2, 2], [1, 2],
      [1, 2], [7, 2]]
    [[1, 1], [5, 2], [9, 0]]
    [eps 0 1, eps 0 5, eps 1 2, callOf 2 3 9 2, eps 3 2, eps 3 4, eps 5 6, atom 6 7 32,
      [7, 8, 6, 1, 0, 0], eps 9 10, [10, 11, 2, 48, 57, 0], eps 11 12] [0, 3] [[6, 0, 0]]

theorem tokenize_optimized_digits :
    loadWords digits { optimize := false } = .ok (loaded digits) ∧
    (loaded digits).kind = .lexer ∧ (loaded digits).Secluded ∧ (loaded digits).Greedy ∧
    (loaded digits).ActionsAdvance ∧
    AllRoomy (loaded digits) "12 3" ∧ 0 < (loaded digits).modes.size ∧
    ∃ fast, loadWords digits { optimize := true } = .ok fast ∧
    tokenize fast "12 3" = tokenize (loaded digits) "12 3" ∧
      ∃ tokens diagnostics, tokenize (loaded digits) "12 3" = .ok (tokens, diagnostics) := by
  have hload : loadWords digits { optimize := false } = .ok (loaded digits) :=
    loadWords_loaded (by decide +kernel)
  have hkind : (loaded digits).kind = .lexer := by decide +kernel
  have hrules : (loaded digits).Secluded := by
    apply secluded_of_states <;> decide +kernel
  have hgreedy : (loaded digits).Greedy := greedy_of_states (by decide +kernel)
  have hadvance : (loaded digits).ActionsAdvance := actionsAdvance_of_stops (by decide +kernel)
  have hroom : AllRoomy (loaded digits) "12 3" :=
    allRoomy_of_states [1, 1, 1, 1] (loadWords_wired hload).1 hadvance
    (by decide +kernel) (by decide +kernel) (by decide) _
  have hmodes : 0 < (loaded digits).modes.size := by decide +kernel
  obtain ⟨fast, hfast, h⟩ :=
    tokenize_optimized hload hkind hrules (fun hst _ => hgreedy hst) hadvance
  obtain ⟨hsame, htokens⟩ := h "12 3" hroom
  exact ⟨hload, hkind, hrules, hgreedy, hadvance, hroom, hmodes, fast, hfast, hsame, htokens hmodes⟩

/-- Each state of a rule is reached from the start of its rule. -/
def Connected (net : Network) : Prop :=
  ∀ {s : Nat} {st : State} {r : Nat}, net.states[s]? = some st → st.rule = some r →
    ∃ start, net.ruleStarts[r]? = some start ∧
      ReflTransGen (fun x y => ∃ st ∈ net.states[x]?, ∃ e ∈ st.edges, e.onward = y) start s

/-- It is so if each state of a rule is the rule's start or comes in the table of states after one
that leads to it. -/
theorem connected_of_order
    (h : ∀ s ∈ List.range net.states.size, ∀ st ∈ net.states[s]?,
      ∀ r ∈ st.rule, net.ruleStarts[r]? = some s ∨ ∃ p ∈ List.range s, ∃ pst ∈ net.states[p]?,
      pst.rule = some r ∧ ∃ e ∈ pst.edges, e.onward = s) : Connected net := by
  intro s
  induction s using Nat.strong_induction_on with
  | _ s ih =>
    intro st r hs hr
    obtain hstart | ⟨p, hp, pst, hpst, hrule, e, he, rfl⟩ :=
      h s (List.mem_range.2 (lt_size hs)) st hs r hr
    · exact ⟨s, hstart, .refl⟩
    · obtain ⟨start, hstart, hpath⟩ := ih p (List.mem_range.1 hp) hpst hrule
      exact ⟨start, hstart, hpath.tail ⟨pst, hpst, e, he, rfl⟩⟩

/-- The words load as a lexer without actions and non-greedy decisions, in which no call is too
deep. Calls lead to the starts of their rules, other edges stay in their rule, and states are
reached from the start of their rule; but the optimized network cuts the text into other tokens. -/
def LosesToken (words : List Word) (text : String) : Prop :=
  let net := loaded words
  loadWords words { optimize := false } = .ok net ∧ net.kind = .lexer ∧ net.CallsEnterRules ∧
    net.StaysInRules ∧ Connected net ∧ net.Greedy ∧
    (∀ st ∈ net.states.toList, ∀ e ∈ st.edges, e.kind ≠ .action) ∧
    (∀ input, AllRoomy net input) ∧
    ∃ fast, loadWords words { optimize := true } = .ok fast ∧ tokenize fast text ≠ tokenize net text

theorem losesToken_of_checks {words : List Word} {text : String} (rounds : Nat) (depths : List Nat)
    (hload : (loadWords words { optimize := false }).toOption.isSome = true)
    (hrules : (loaded words).kind = .lexer ∧ (loaded words).CallsEnterRules ∧
      (loaded words).StaysInRules ∧ ∀ s ∈ List.range (loaded words).states.size,
      ∀ st ∈ (loaded words).states[s]?, ∀ r ∈ st.rule, (loaded words).ruleStarts[r]? = some s ∨
      ∃ p ∈ List.range s, ∃ pst ∈ (loaded words).states[p]?, pst.rule = some r ∧
      ∃ e ∈ pst.edges, e.onward = s)
    (hstates : ∀ st ∈ (loaded words).states.toList, st.isNonGreedy = false ∧
      (∀ e ∈ st.edges ++ st.followed, e.kind ≠ .action) ∧ (st.isRuleStop = false →
      (st.isSilent = false → st.followed.length ≤ 1) ∧ ∀ e ∈ st.followed, depths.getD e.onward 0 ≤
      depths.getD st.number 0 ∧ ∀ c ∈ e.call?, depths.getD c.start 0 < depths.getD st.number 0))
    (hbound : ∀ d ∈ depths, d ≤ maxCalls)
    (hlost : (decode words).toOption.any (fun net => (Loop.unroll optimizeRound rounds ({},
      { net with states := net.states.map State.ensureOptimized })).any
      (·.toOption.any (·.2.withTailCalls.toOption.any fun fast =>
      (tokenize fast text).toOption ≠ (tokenize (loaded words) text).toOption))) = true) :
    LosesToken words text := by
  have hloaded := loadWords_loaded hload
  obtain ⟨hkind, hcalls, hstays, horder⟩ := hrules
  have hadvance : (loaded words).ActionsAdvance := actionsAdvance_of_stops fun st hst e he hact =>
    absurd hact ((hstates st hst).2.1 e (List.mem_append_right _ he))
  obtain ⟨decoded, changes, opt, fast, hdecode, -, -, -, hopt, hfast, hagain⟩ :=
    exists_optimized hloaded hkind
  refine ⟨hloaded, hkind, hcalls, hstays,
    connected_of_order horder, greedy_of_states fun st hst => (hstates st hst).1, fun st hst e he =>
    (hstates st hst).2.1 e (List.mem_append_left _ he), allRoomy_of_states depths
    (loadWords_wired hloaded).1 hadvance (fun st hst hns => ((hstates st hst).2.2 hns).1)
    (fun st hst hns => ((hstates st hst).2.2 hns).2) hbound, fast, hagain, fun heq => ?_⟩
  rw [hdecode] at hlost
  obtain ⟨r, hr, hlost⟩ := @Loop.runOr_of_unroll _ _ _ _ Fault.unfinished rounds _ hlost
  obtain rfl : (changes, opt) = r := Except.ok.inj (hopt.symm.trans hr)
  simp [hfast, Except.toOption, heq] at hlost

/-- The call in state 4 matches nothing. The call in state 9 goes on in the stop of another rule. -/
def followElsewhere : List Word :=
  lexerWords [[6, 0xFFFF], [2, 0], [7, 0], [2, 1], [1, 1], [1, 1], [7, 1], [2, 2], [11, 2],
    [1, 2], [7, 2]]
    [[1, 1], [3, 2], [7, 3]]
    [eps 0 3, eps 1 2, eps 3 4, callOf 4 5 1 0, atom 5 6 98, eps 7 8, eps 8 9, eps 8 10,
      callOf 9 2 3 1] [0, 8] []

/-- The call in state 5 matches nothing. States outside the rules, the last three, lead into the
stop of its rule. -/
def statesElsewhere : List Word :=
  lexerWords
    [[6, 0xFFFF], [2, 0], [7, 0], [2, 1], [1, 1], [1, 1], [1, 1], [7, 1], [1, 0xFFFF],
      [1, 0xFFFF], [1, 0xFFFF]]
    [[1, 1], [3, 2]]
    [eps 0 3, eps 1 2, eps 3 4, atom 4 5 98, callOf 5 6 1 0, eps 6 7, callOf 8 9 3 1, atom 9 10 99,
      eps 10 2] [0] []

/-- The call in state 9 matches nothing. Its rule goes on behind its first stop, to another one. -/
def twoStops : List Word :=
  lexerWords [[6, 0xFFFF], [2, 0], [7, 0], [1, 0], [1, 0], [7, 0], [2, 1], [1, 1], [1, 1],
    [1, 1], [7, 1]]
    [[1, 1], [6, 2]]
    [eps 0 6, eps 1 2, eps 2 3, atom 3 4 99, eps 4 5, eps 6 7, atom 7 8 98, callOf 8 9 1 0,
      eps 9 10] [0] []

/-- With no more than that calls enter rules, other edges stay inside and states are reached from
the starts of their rules, an optimization may be visible: if a call goes on outside its rule, if
states outside the rules match or call, or if a rule has states behind its stop. -/
theorem optimize_loses_tokens :
    LosesToken followElsewhere "b" ∧ LosesToken statesElsewhere "b" ∧ LosesToken twoStops "b" := by
  refine ⟨losesToken_of_checks 3 [2, 0, 0, 1, 1, 1, 1, 2, 2, 2, 2] ?_ ?_ ?_ (by decide) ?_,
    losesToken_of_checks 3 [1, 0, 0, 1, 1, 1, 1, 1, 2, 2, 2] ?_ ?_ ?_ (by decide) ?_,
    losesToken_of_checks 3 [1, 0, 0, 0, 0, 0, 1, 1, 1, 1, 1] ?_ ?_ ?_ (by decide) ?_⟩
  all_goals decide +kernel

end fixed

end Tokenizer

end GrammarWalk
