import GrammarWalk.Proofs.Debug.Ask
import GrammarWalk.Proofs.Load.Language

/-! The parse of a session goes on by moves of its own, whatever is asked of the session in
between. So what a parse has at its start and what each move keeps, every parse that a session
comes to has. -/

namespace GrammarWalk

/-- One move of a parse: it takes an edge, recovers from a failure, returns from a rule or comes to
its end. -/
inductive Walker.Move (w w' : Walker) : Prop
  | visit {st : State} : w.net.states[w.state]? = some st → st.isRuleStop = false →
      w.visit = .ok (.ok w') → Move w w'
  | fail {st : State} {f : Failure} : w.net.states[w.state]? = some st → st.isRuleStop = false →
      w.visit = .ok (.error f) → w.fail f = .ok w' → Move w w'
  | leave {st : State} : w.net.states[w.state]? = some st → st.isRuleStop = true →
      w.atRoot = .ok false →
      w.visitStop = .ok w' → Move w w'
  | finish {st : State} : w.net.states[w.state]? = some st → st.isRuleStop = true →
      w.atRoot = .ok true →
      w.finishRoot = .ok w' → Move w w'

theorem Walker.Move.same {w w' : Walker} (h : w.Move w') :
    w'.net = w.net ∧ w'.tokens.get = w.tokens.get := by
  cases h with
  | visit _ _ hvisit => exact ⟨(continues_visit hvisit).net, (continues_visit hvisit).get⟩
  | fail _ _ _ hfail => exact ⟨(continues_fail hfail).net, (continues_fail hfail).get⟩
  | leave _ _ _ hleave => exact ⟨(continues_visitStop hleave).net, (continues_visitStop hleave).get⟩
  | finish _ _ _ hfinish =>
    obtain ⟨v, hv, rfl⟩ := finishRoot_smooth hfinish
    exact ⟨hv.net, hv.get⟩

theorem Walker.Move.net {w w' : Walker} (h : w.Move w') : w'.net = w.net := h.same.1

namespace Session

variable {net : Network} {s t : Session} {w : Walker} {run : Run} {stop : Bool}

theorem parser_moveAlong {st : State} (h : s.moveAlong st = .ok t) : t.parser = s.parser := by
  obtain rfl | ⟨f, rest, next, -, rfl⟩ := moveAlong_cases h <;> rfl

theorem step_move (hnet : s.parser = w.net) (h : s.step run w = .ok (stop, t)) :
    t.parser = s.parser ∧ ∃ w', t.walker = some w' ∧ w.Move w' := by
  have stopped {v : Session} {b : Bool} {e : Event} (h : v.stopIf b e = (stop, t)) :
      t.parser = v.parser ∧ t.walker = v.walker := by
    obtain ⟨-, rfl⟩ := Prod.mk.inj h
    cases b <;> exact ⟨rfl, rfl⟩
  simp only [step, bind_eq_ok, Network.state_eq_ok] at h
  obtain ⟨st, hst, u, hu, h⟩ := h
  rw [hnet] at hst
  rw [← parser_moveAlong hu]
  split at h
  · rename_i hstop
    rw [leaveRule, bind_eq_ok] at h
    obtain ⟨root, hroot, h⟩ := h
    split at h
    · rename_i his
      obtain rfl : root = true := his
      simp only [bind_eq_ok, pure_eq_ok] at h
      obtain ⟨v, hv, h⟩ := h
      obtain ⟨hparser, hwalker⟩ := stopped h
      exact ⟨hparser, v, hwalker, .finish hst hstop hroot hv⟩
    · rename_i his
      obtain rfl : root = false := by simpa using his
      simp only [bind_eq_ok, pure_eq_ok] at h
      obtain ⟨v, hv, h⟩ := h
      obtain ⟨hparser, hwalker⟩ := stopped h
      exact ⟨hparser, v, hwalker, .leave hst hstop hroot hv⟩
  · rename_i hns
    have hns : st.isRuleStop = false := by simpa using hns
    rw [passState, bind_eq_ok] at h
    obtain ⟨v, hv, h⟩ := h
    have hframe : (if st.isRuleStart then u.pushFrame (st.rule.getD 0) else u).parser =
        u.parser := by
      split <;> rfl
    obtain ⟨hparser, w', hwalker, hmove⟩ : v.parser = u.parser ∧ ∃ w', v.walker = some w' ∧
        w.Move w' := by
      rw [takeEdge, bind_eq_ok] at hv
      obtain ⟨visited, hvisit, hv⟩ := hv
      split at hv
      · obtain rfl := pure_eq_ok.1 hv
        exact ⟨hframe, _, rfl, .visit hst hns hvisit⟩
      · simp only [bind_eq_ok, pure_eq_ok] at hv
        obtain ⟨w', hw', rfl⟩ := hv
        exact ⟨hframe, w', rfl, .fail hst hns hvisit hw'⟩
    split at h
    all_goals
      obtain ⟨hparser', hwalker'⟩ := stopped (pure_eq_ok.1 h)
      exact ⟨hparser'.trans hparser, w', hwalker'.trans hwalker, hmove⟩

/-- The session has no parse yet, or one of some list of tokens that has just begun. -/
structure Begins (net : Network) (s : Session) : Prop where
  parser : s.parser = net
  walker : ∀ w, s.walker = some w → ∃ (tokens : List Token) (rule : Nat),
    ({ net, tokens := .ofList tokens } : Walker).enterRoot rule = .ok w

theorem create_eq_ok {parser lexer : Network} {grammar : Grammar} {outline : Outline}
    {stopOnEntry : Bool} :
    create parser lexer grammar outline stopOnEntry = .ok s ↔
      parser.kind = .parser ∧ lexer.kind = .lexer ∧
      s = { parser, lexer, grammar, outline, stopOnEntry } := by
  by_cases hp : parser.kind = .parser <;> by_cases hl : lexer.kind = .lexer <;>
    simp only [create, hp, hl, ne_eq, not_true_eq_false, not_false_eq_true, if_true, if_false,
      true_and, false_and, iff_false]
  · exact pure_eq_ok.trans eq_comm
  all_goals exact nofun

theorem begins_create {lexer : Network} {grammar : Grammar} {outline : Outline} {stopOnEntry : Bool}
    (h : create net lexer grammar outline stopOnEntry = .ok s) : s.Begins net := by
  rw [(create_eq_ok.1 h).2.2]
  exact ⟨rfl, nofun⟩

/-- A session over the words that stops on entry. -/
def sessionOver (words : List Wire.Word) : Session :=
  { parser := loaded words, lexer := letterSession.lexer, grammar := default, outline := default,
    stopOnEntry := true }

theorem begins_sessionOver (words : List Wire.Word) : (sessionOver words).Begins (loaded words) :=
  ⟨rfl, nofun⟩

section keep

variable {P : Walker → Prop} (begun : ∀ (tokens : List Token) (rule : Nat) (w : Walker),
    ({ net, tokens := .ofList tokens } : Walker).enterRoot rule = .ok w → P w)
  (moved : ∀ w w' : Walker, w.net = net → w.finished = false → P w → w.Move w' → P w')

/-- The parse of the session, if there is one, is over the network and has the property. -/
structure Has (net : Network) (P : Walker → Prop) (s : Session) : Prop where
  parser : s.parser = net
  walker : ∀ w, s.walker = some w → w.net = net ∧ P w

include moved

theorem Has.resume {mode : RunMode} (hs : s.Has net P) (h : s.resume mode = .ok t) :
    t.Has net P := by
  obtain rfl | hchain := resume_advances h
  · exact ⟨hs.parser, hs.walker⟩
  · clear h
    induction hchain with
    | refl => exact hs
    | tail _ hstep ih =>
      obtain ⟨w, run, stop, hw, hf, hstep⟩ := hstep
      obtain ⟨hnet, hP⟩ := ih.walker w hw
      obtain ⟨hparser, w', hw', hmove⟩ := step_move (ih.parser.trans hnet.symm) hstep
      refine ⟨hparser.trans ih.parser, fun u hu => ?_⟩
      obtain rfl := Option.some.inj (hw'.symm.trans hu)
      exact ⟨hmove.net.trans hnet, moved w w' hnet hf hP hmove⟩

include begun

theorem Has.start {rule : Nat} {input : String} (hs : s.Has net P)
    (h : s.start rule input = .ok t) : t.Has net P := by
  simp only [Session.start, bind_eq_ok] at h
  obtain ⟨⟨w, u⟩, hu, h⟩ := h
  have hu : u.Has net P := by
    obtain ⟨-, tokens, diagnostics, -, hroot, rfl⟩ := enter_eq_ok hu
    rw [hs.parser] at hroot
    refine ⟨hs.parser, fun v hv => ?_⟩
    obtain rfl : w = v := Option.some.inj hv
    exact ⟨(Walker.continues_enterRoot hroot).net, begun tokens rule w hroot⟩
  split at h
  · obtain rfl := pure_eq_ok.1 h
    exact ⟨hu.parser, hu.walker⟩
  · exact Has.resume moved hu h

theorem Has.answer (hs : s.Has net P) (ask : Ask) : (s.answer ask).Has net P := by
  cases ask with
  | start rule input =>
    rw [Session.answer]
    cases h : s.start rule input with
    | error e => exact hs
    | ok t => exact Has.start begun moved hs h
  | resume mode =>
    rw [Session.answer]
    cases h : s.resume mode with
    | error e => exact hs
    | ok t => exact Has.resume moved hs h
  | addBreakpoint source line =>
    have hsame : (s.addBreakpoint source line).2.parser = s.parser ∧
        (s.addBreakpoint source line).2.walker = s.walker := by
      unfold addBreakpoint
      dsimp only
      split <;> exact ⟨rfl, rfl⟩
    exact ⟨hsame.1.trans hs.parser, fun w hw => hs.walker w (hsame.2 ▸ hw)⟩
  | clearBreakpoints => exact ⟨hs.parser, hs.walker⟩
  | drainEvents => exact ⟨hs.parser, hs.walker⟩

/-- What holds of every parse that has just begun, and is kept by each move of an unfinished parse,
holds of the parse of a session after any calls. -/
theorem answers_keep (hs : s.Begins net) (asks : List Ask)
    (hw : (asks.foldl answer s).walker = some w) : P w := by
  have first : s.Has net P := by
    refine ⟨hs.parser, fun v hv => ?_⟩
    obtain ⟨tokens, rule, hroot⟩ := hs.walker v hv
    exact ⟨(Walker.continues_enterRoot hroot).net, begun tokens rule v hroot⟩
  have last :=
    foldl_keeps (P := Has net P) (l := asks) (fun ask _ t ht => Has.answer begun moved ht ask) first
  exact (last.walker w hw).2

end keep

end Session

end GrammarWalk
