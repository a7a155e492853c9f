import GrammarWalk.Proofs.Tokenizer.Match
import GrammarWalk.Tokenizer.Scan

/-! How a text is cut up. Its pieces lie end to end: each becomes a token, is skipped, or is quoted
by a diagnostic. What is left over at the end is the text that was held for a next match, which
never came. -/

namespace GrammarWalk.Tokenizer

variable {net : Network} {m m' : Modes} {held text left : List Char} {fuel : Nat}

inductive Fate
  | token (type channel : Int)
  | skipped
  | refused
deriving DecidableEq, Repr, Inhabited

structure Piece where
  text : List Char
  fate : Fate
deriving DecidableEq, Repr, Inhabited

/-- The fate of a match that is not joined to the next. -/
def Outcome.fate (o : Outcome) : Fate := if o.skip then .skipped else .token o.type o.channel

/-- The pieces that a lexer cuts off a text, with the text held in front of it, and what it still
holds at its end. -/
inductive Cut (net : Network) : Modes → List Char → List Char → List Piece → List Char → Prop
  | done {m : Modes} {held : List Char} : Cut net m held [] [] held
  | more {m : Modes} {held text left : List Char} {pieces : List Piece} {found : Match} :
      longestMatch net m.current text = .ok (some found) → (performAll net found m).1.more = true →
      Cut net (performAll net found m).2 (held ++ text.take found.length)
      (text.drop found.length) pieces left →
      Cut net m held text pieces left
  | ends {m : Modes} {held text left : List Char} {pieces : List Piece} {found : Match} :
      longestMatch net m.current text = .ok (some found) → (performAll net found m).1.more = false →
      Cut net (performAll net found m).2 [] (text.drop found.length) pieces left →
      Cut net m held text
        ({ text := held ++ text.take found.length, fate := (performAll net found m).1.fate } ::
          pieces) left
  | refused {m : Modes} {c : Char} {held text left : List Char} {pieces : List Piece} :
      longestMatch net m.current (c :: text) = .ok none → Cut net m [] text pieces left →
      Cut net m held (c :: text) ({ text := held ++ [c], fate := .refused } :: pieces) left

theorem Cut.covers {pieces : List Piece} (h : Cut net m held text pieces left) :
    held ++ text = pieces.flatMap Piece.text ++ left := by
  induction h with
  | done => simp
  | more _ _ _ ih => rw [← ih, List.append_assoc, List.take_append_drop]
  | ends _ _ _ ih =>
    rw [List.flatMap_cons, List.append_assoc, ← ih, List.nil_append, List.append_assoc,
      List.take_append_drop]
  | refused _ _ ih => rw [List.flatMap_cons, List.append_assoc, ← ih, List.append_assoc]; rfl

theorem more_mem_of_perform {o : Outcome} {c : Command} (h : (perform net o m c).1.more = true) :
    o.more = true ∨ c = .more := by
  cases c with
  | more => exact .inr rfl
  | popMode =>
    cases hs : m.saved <;> simp only [perform, hs] at h <;> exact .inl h
  | _ => exact .inl h

theorem more_mem_of_performAll {found : Match} (h : (performAll net found m).1.more = true) :
    .more ∈ net.commands := by
  refine foldl_keeps (P := fun (om : Outcome × Modes) => om.1.more = true → .more ∈ net.commands)
    (fun i _ om hom hmore => ?_)
    (fun h => absurd h Bool.false_ne_true) h
  dsimp only at hmore
  split at hmore
  · rename_i c hc
    rcases more_mem_of_perform hmore with hmore | rfl
    · exact hom hmore
    · exact Array.mem_of_getElem? hc
  · exact hom hmore

theorem Cut.more_mem {pieces : List Piece} (h : Cut net m held text pieces left)
    (hleft : left ≠ []) : held ≠ [] ∨ .more ∈ net.commands := by
  induction h with
  | done => exact .inl hleft
  | more _ hmore _ _ => exact .inr (more_mem_of_performAll hmore)
  | ends _ _ _ ih => exact .inr ((ih hleft).resolve_left (· rfl))
  | refused _ _ ih => exact .inr ((ih hleft).resolve_left (· rfl))

section report

/-- What is known of the pieces so far: where the next one starts, the tokens and the
diagnostics. -/
structure Report where
  place : Place := {}
  tokens : List Token := []
  diagnostics : List Diagnostic := []
deriving DecidableEq, Repr, Inhabited

def Report.add (r : Report) (p : Piece) : Report :=
  let place := p.text.foldl Place.after r.place
  match p.fate with
  | .token type channel => { r with
      place
      tokens := r.tokens ++ [{
        type, channel, start := r.place.offset, stop := place.offset
        line := r.place.line, column := r.place.column
        index := r.tokens.length, text := String.ofList p.text }] }
  | .skipped => { r with place }
  | .refused => { r with
      place
      diagnostics := r.diagnostics ++ [{
        line := r.place.line, column := r.place.column
        message := s!"token recognition error at: '{Text.oneLine (String.ofList p.text)}'" }] }

theorem offset_foldl_after (p : Place) :
    (text.foldl Place.after p).offset = p.offset + text.length := by
  induction text generalizing p with
  | nil => rfl
  | cons c text ih =>
    have hafter : (p.after c).offset = p.offset + 1 := by unfold Place.after; split <;> rfl
    rw [List.foldl_cons, ih, hafter, List.length_cons]
    omega

namespace Scan

variable {s s' : Scan}

def report (s : Scan) : Report :=
  { place := s.start, tokens := s.tokens, diagnostics := s.diagnostics }

/-- The scan stands behind the text it holds. -/
def Aligned (s : Scan) : Prop := s.here = s.held.foldl Place.after s.start

theorem report_afterMatch {found : Match} (hs : s.Aligned)
    (hmore : (performAll net found s.modes).1.more = false) :
    (s.afterMatch net found text).report =
      s.report.add { text := s.held ++ text, fate := (performAll net found s.modes).1.fate } := by
  have hhere : text.foldl Place.after s.here = (s.held ++ text).foldl Place.after s.start := by
    rw [List.foldl_append, ← hs]
  cases hskip : (performAll net found s.modes).1.skip <;>
    simp [afterMatch, hmore, hskip, report, Report.add, Outcome.fate, token, hhere]

theorem report_of_more {found : Match} (hmore : (performAll net found s.modes).1.more = true) :
    (s.afterMatch net found text).report = s.report := by
  simp [afterMatch, hmore, report]

theorem report_afterError {c : Char} (hs : s.Aligned) :
    (s.afterError c).report = s.report.add { text := s.held ++ [c], fate := .refused } := by
  have hhere : s.here.after c = (s.held ++ [c]).foldl Place.after s.start := by
    rw [List.foldl_append, ← hs]
    rfl
  simp [afterError, report, Report.add, hhere]

theorem here_afterMatch {found : Match} :
    (s.afterMatch net found text).here = text.foldl Place.after s.here := by
  unfold afterMatch
  dsimp only
  split <;> rfl

/-- A scan stays behind the text it holds, which grows by a match that is to be joined to the
next. -/
theorem Aligned.afterMatch (hs : s.Aligned) (net : Network) (found : Match) (text : List Char) :
    (s.afterMatch net found text).Aligned ∧
    (s.afterMatch net found text).modes = (performAll net found s.modes).2 ∧
    (s.afterMatch net found text).held =
      if (performAll net found s.modes).1.more then s.held ++ text else [] := by
  cases hmore : (performAll net found s.modes).1.more with
  | true =>
    have hafter : s.afterMatch net found text = { s with
        modes := (performAll net found s.modes).2, here := text.foldl Place.after s.here,
            held := s.held ++ text } := by
      simp [Scan.afterMatch, hmore]
    rw [hafter, Aligned, List.foldl_append, ← hs]
    exact ⟨rfl, rfl, rfl⟩
  | false => simp [Scan.afterMatch, hmore, Aligned]

theorem exists_cut (hs : s.Aligned) (h : run net fuel s text = .ok s') : ∃ pieces,
    Cut net s.modes s.held text pieces s'.held ∧ pieces.foldl Report.add s.report = s'.report ∧
      s'.here = text.foldl Place.after s.here := by
  induction fuel generalizing s text with
  | zero =>
    cases text with
    | nil =>
      obtain rfl := pure_eq_ok.1 h
      exact ⟨[], .done, rfl, rfl⟩
    | cons => exact nomatch h
  | succ fuel ih =>
    cases text with
    | nil =>
      obtain rfl := pure_eq_ok.1 h
      exact ⟨[], .done, rfl, rfl⟩
    | cons c text =>
      rw [run, bind_eq_ok] at h
      obtain ⟨found, hfound, h⟩ := h
      cases found with
      | none =>
        obtain ⟨pieces, hcut, hreport, hhere⟩ := ih (s := s.afterError c) rfl h
        refine ⟨_, .refused hfound hcut, ?_, hhere⟩
        rw [List.foldl_cons, ← report_afterError hs, hreport]
      | some found =>
        obtain ⟨haligned, hmodes, hheld⟩ := hs.afterMatch net found ((c :: text).take found.length)
        obtain ⟨pieces, hcut, hreport, hlast⟩ := ih haligned h
        have hhere : s'.here = (c :: text).foldl Place.after s.here := by
          rw [hlast, here_afterMatch, ← List.foldl_append, List.take_append_drop]
        rw [hmodes, hheld] at hcut
        cases hmore : (performAll net found s.modes).1.more with
        | true =>
          rw [hmore, if_pos rfl] at hcut
          exact ⟨pieces, .more hfound hmore hcut, report_of_more hmore ▸ hreport, hhere⟩
        | false =>
          rw [hmore, if_neg Bool.false_ne_true] at hcut
          refine ⟨_, .ends hfound hmore hcut, ?_, hhere⟩
          rw [List.foldl_cons, ← report_afterMatch hs hmore, hreport]

end Scan

end report

/--
A text is made up of pieces, each reported at its place as a token or quoted by a diagnostic or
skipped, and of what is left over at the end. A lexer that never joins a match to the next leaves
nothing over.
-/
theorem tokenize_covers {input : String} {tokens : List Token} {diagnostics : List Diagnostic}
    (h : tokenize net input = .ok (tokens, diagnostics)) :
    ∃ pieces left,
      Cut net {} [] input.toList pieces left ∧ input.toList = pieces.flatMap Piece.text ++ left ∧
      (∃ last, tokens = (pieces.foldl Report.add {}).tokens ++ [last] ∧ last.type = Symbol.eof) ∧
      diagnostics = (pieces.foldl Report.add {}).diagnostics ∧
      (.more ∉ net.commands → left = []) := by
  obtain ⟨s, hrun, heq⟩ : ∃ s, Scan.run net input.length {} input.toList = .ok s ∧
      (s.finish, s.diagnostics) = (tokens, diagnostics) := by
    by_cases hkind : net.kind = .lexer
    · cases hmodes : net.modes.isEmpty with
      | true =>
        rw [tokenize, if_neg (not_not.2 hkind), if_pos hmodes] at h
        cases h
      | false =>
        rw [tokenize, if_neg (not_not.2 hkind), if_neg (by simp [hmodes])] at h
        obtain ⟨s, hs, h⟩ := bind_eq_ok.1 h
        exact ⟨s, liftM_run_eq_ok.1 hs, pure_eq_ok.1 h⟩
    · rw [tokenize, if_pos hkind] at h
      cases h
  obtain ⟨rfl, rfl⟩ := Prod.mk.inj heq
  obtain ⟨pieces, hcut, hreport, -⟩ := Scan.exists_cut (s := {}) rfl hrun
  have hreport : pieces.foldl Report.add {} = s.report := hreport
  refine ⟨pieces, s.held, hcut, hcut.covers, ?_, ?_, fun hmore => ?_⟩
  · rw [hreport]
    exact ⟨_, rfl, rfl⟩
  · rw [hreport]
    rfl
  · by_contra hleft
    rcases hcut.more_mem hleft with hheld | hmem
    · exact hheld rfl
    · exact hmore hmem

open Wire in
def joined : List Word :=
  lexerWords [[6, 0xFFFF], [2, 0], [7, 0], [1, 0], [1, 0], [1, 0]] [[1, 1]]
    [eps 0 1, eps 1 3, atom 3 4 97, [4, 5, 6, 0, 0, 0], eps 5 2] [0] [[3, 0, 0]]

/-- A letter that waits for the next match at the end of the text becomes no token, is not skipped
and is in no diagnostic; in front of a character that is refused it is quoted. -/
example : tokenize (loaded joined) "a" = .ok ([.endOfInput 1 1 1 0], []) ∧
    tokenize (loaded joined) "a?" = .ok ([.endOfInput 2 1 2 0],
    [{ line := 1, column := 0, message := "token recognition error at: 'a?'" }]) := by
      decide +kernel

end GrammarWalk.Tokenizer
