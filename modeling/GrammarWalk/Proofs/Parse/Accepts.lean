import GrammarWalk.Proofs.Load.Labels
import GrammarWalk.Proofs.Network.LookAhead
import GrammarWalk.Proofs.Parse.Closure
import GrammarWalk.Proofs.Parse.Grounded
import GrammarWalk.Proofs.Parse.Moves

/-! A token is tested in four places: against an edge, against the symbols of an edge, by a parse
that stands before the edge, and by a choice whose trails come to it. A look-ahead lists what
passes. At a state with one edge that takes input all of them come to the same. -/

namespace GrammarWalk

open Network

theorem Edge.fits_eq_accepts {net : Network} {v : Int} (hv : net.IsToken v) (e : Edge) :
    e.fits v net.maxToken = e.accepts v Symbol.minToken net.maxToken := by
  cases e with
  | wildcard t =>
    rw [Bool.eq_iff_iff]
    simp only [fits, accepts, bne_iff_ne, Bool.and_eq_true, decide_eq_true_eq]
    rw [IsToken] at hv
    simp only [Symbol.eof, Symbol.minToken] at hv ⊢
    omega
  | _ => rfl

namespace Network

variable {net : Network} {s : Nat} {st : State} {e : Edge} {found : SymbolSet}

/-- State `s` ends no rule and has one edge, `e`, which takes input. -/
structure Lone (net : Network) (s : Nat) (st : State) (e : Edge) : Prop where
  state : net.states[s]? = some st
  notStop : st.isRuleStop = false
  edges : st.edges = [e]
  loud : e.isSilent = false

theorem Lone.nextSymbols (h : net.Lone s st e) : ∃ found, net.nextSymbols s = .ok found ∧
    ∀ v, v ∈ found ↔ e.accepts v Symbol.minToken net.maxToken = true := by
  obtain ⟨symbols, hsymbols⟩ : ∃ symbols, e.accepted? Symbol.minToken net.maxToken =
      some symbols := by
    have hloud := h.loud
    cases e <;> first | exact ⟨_, rfl⟩ | cases hloud
  refine ⟨∅ ∪ symbols, ?_, fun v => ?_⟩
  · have hlook : net.lookFrom net.lookBound s [] {} =
        .ok { busy := [(s, [])], found := ∅ ∪ symbols } := by
      unfold lookBound lookFrom
      refine bind_eq_ok.2 ⟨st, state_eq_ok.2 h.state, ?_⟩
      rw [h.notStop, h.edges]
      have hloud := h.loud
      cases e with
      | atom | range | set | notSet | wildcard =>
        simp only [Bool.false_eq_true, if_false, List.foldlM_cons, List.foldlM_nil, hsymbols]
        rfl
      | epsilon | call | predicate | precedence | action => cases hloud
    rw [Network.nextSymbols, hlook]
    rfl
  · rw [SymbolSet.mem_union, Edge.accepts_iff]
    simp [hsymbols]

theorem expectedSymbols_eq (h : net.nextSymbols s = .ok found) (hmark : Symbol.ruleEnd ∉ found)
    (follow : List Nat) : net.expectedSymbols s follow = .ok found := by
  refine bind_eq_ok.2 ⟨found, h, ?_⟩
  rw [if_neg (show ¬ found.contains Symbol.ruleEnd = true from hmark)]
  rfl

theorem Lone.not_ruleEnd (h : net.Lone s st e) (hu : net.Unmarked)
    (hiff : ∀ v, v ∈ found ↔ e.accepts v Symbol.minToken net.maxToken = true) :
    Symbol.ruleEnd ∉ found := by
  rw [hiff, (hu.state h.state).edges e (by simp [h.edges])]
  decide

end Network

namespace Walker

variable {w w' : Walker} {st : State} {e : Edge} {found : SymbolSet} {f : Failure}

theorem visit_of_lone (h : w.net.Lone w.state st e) : w.visit = do
    match ← w.takeToken (e.fits · w.net.maxToken) with
    | .error f => return .error f
    | .ok w' => return .ok { w' with state := e.target } := by
  have hchoose : w.chooseEdge st = .ok (.ok 1) := by
    rw [chooseEdge, if_neg (by simp [h.edges])]
    rfl
  rw [visit, state_eq_ok.2 h.state]
  show w.chooseEdge st >>= _ = _
  rw [hchoose, h.edges]
  show w.takeEdge st e >>= _ = _
  exact takeEdge_of_not_isSilent h.loud ▸ rfl

theorem takeToken_of_fits (fits : Int → Bool) (hw : w.Grounded)
    (hfits : fits w.tokens.ahead = true) : ∃ w', w.takeToken fits = .ok (.ok w') := by
  rw [takeToken, if_pos hfits]
  cases hc : w.context with
  | none => exact ⟨_, rfl⟩
  | some c =>
    obtain ⟨r, hr⟩ : ∃ r, w.tree.addLeaf c w.tokens.position = .ok r :=
      Tree.addToken_returns (hw.context c hc)
    exact ⟨_, bind_eq_ok.2 ⟨r, hr, rfl⟩⟩

theorem fits_of_takeToken {fits : Int → Bool} (h : w.takeToken fits = .ok (.ok w')) :
    fits w.tokens.ahead = true := by
  unfold takeToken at h
  split at h
  · assumption
  · simp only [bind_eq_ok, pure_eq_ok, reduceCtorEq, and_false, exists_false] at h

theorem visit_iff_fits (h : w.net.Lone w.state st e) (hw : w.Grounded) :
    (∃ w', w.visit = .ok (.ok w')) ↔ e.fits w.tokens.ahead w.net.maxToken = true := by
  rw [visit_of_lone h]
  constructor
  · rintro ⟨w', hvisit⟩
    obtain ⟨taken, htaken, hvisit⟩ := bind_eq_ok.1 hvisit
    cases taken with
    | error f => cases pure_eq_ok.1 hvisit
    | ok v => exact fits_of_takeToken htaken
  · intro hfits
    obtain ⟨v, hv⟩ := takeToken_of_fits (e.fits · w.net.maxToken) hw hfits
    exact ⟨_, bind_eq_ok.2 ⟨_, hv, rfl⟩⟩

theorem failure_of_visit (h : w.net.Lone w.state st e) (hvisit : w.visit = .ok (.error f)) :
    e.fits w.tokens.ahead w.net.maxToken = false ∧ ∃ follow expected,
      w.net.expectedSymbols w.state follow = .ok expected ∧
      f = .mismatch w.state w.tokens.position expected := by
  rw [visit_of_lone h] at hvisit
  obtain ⟨taken, htaken, hvisit⟩ := bind_eq_ok.1 hvisit
  cases taken with
  | error f' =>
    obtain rfl := Except.error.inj (pure_eq_ok.1 hvisit)
    exact mismatch_of_takeToken htaken
  | ok v => cases pure_eq_ok.1 hvisit

end Walker

namespace Choice

variable {c : Setting} {t : Trail} {st : State} {e : Edge}

/-- A choice sends a trail on along the one edge exactly if that accepts the symbol, at the decision
itself and behind it. -/
theorem send_of_lone (h : c.net.Lone t.state st e) (hf : st.followed = [e])
    (ht : t.only = none ∨ t.only = some 0)
    (v : Int) (front : Front) : send c v front t =
      if e.accepts v Symbol.minToken c.net.maxToken = true then
        close c (closeBound c) { t with state := e.target, only := none } front
      else .ok front := by
  have hedges : edgesOf st t = .ok [e] := by
    obtain ht | ht := ht
    · rw [edgesOf, ht, hf]
      rfl
    · rw [edgesOf, ht, h.edges]
      rfl
  have hopen : t.isComplete st = false := by rw [Trail.isComplete, h.notStop]; rfl
  rw [send, state_eq_ok.2 h.state]
  show (if t.isComplete st = true then _ else _) = _
  rw [hopen, if_neg Bool.false_ne_true, hedges]
  let take (front : Front) (e : Edge) : Except Fault Front :=
    if e.accepts v Symbol.minToken c.net.maxToken = true then
      close c (closeBound c) { t with state := e.target, only := none } front
    else pure front
  show [e].foldlM take front = take front e
  exact bind_pure _

end Choice

end GrammarWalk
