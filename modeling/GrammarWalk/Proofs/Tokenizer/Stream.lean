import GrammarWalk.Proofs.Tokenizer.Rounds

/-! The tokens of a text stand in it in order, each at its line and column, and so do the
diagnostics. What carries this from piece to piece is that the report ends where the next piece
starts, and that no piece is empty. -/

namespace GrammarWalk

/-- The line of the character with number `i`, from 1. -/
def lineAt (text : List Char) (i : Nat) : Nat := (text.take i).count '\n' + 1

/-- The characters of its line in front of the character with number `i`. -/
def columnAt (text : List Char) (i : Nat) : Nat :=
  ((text.take i).reverse.takeWhile (· ≠ '\n')).length

/-- The token stands for the characters of the text from its start to its stop, of which there is at
least one. -/
structure Token.Spans (text : List Char) (t : Token) : Prop where
  start_lt : t.start < t.stop
  stop_le : t.stop ≤ text.length
  text_eq : t.text = String.ofList ((text.take t.stop).drop t.start)
  line_eq : t.line = lineAt text t.start
  column_eq : t.column = columnAt text t.start

/-- The diagnostic is about an earlier place than the other. -/
def Diagnostic.Before (d d' : Diagnostic) : Prop :=
  d.line < d'.line ∨ d.line = d'.line ∧ d.column < d'.column

instance : DecidableRel Diagnostic.Before := fun _ _ => inferInstanceAs (Decidable (_ ∨ _))

namespace Tokenizer

open Network Relation

variable {net : Network} {text rest left : List Char} {i j : Nat} {p : Piece}
  {pieces : List Piece} {r : Report}

section places

/-- The place of the character with number `i`. -/
def placeAt (text : List Char) (i : Nat) : Place :=
  { offset := i, line := lineAt text i, column := columnAt text i }

theorem foldl_after_eq_placeAt (text : List Char) :
    text.foldl Place.after {} = placeAt text text.length := by
  induction text using List.reverseRecOn with
  | nil => rfl
  | append_singleton text c ih =>
    rw [List.foldl_concat, ih, Place.after]
    unfold placeAt lineAt columnAt
    rw [List.take_length, List.take_length, List.reverse_concat]
    split
    · subst c
      simp
    · rename_i hc
      simp [hc]

theorem placeAt_take (text : List Char) (i : Nat) : placeAt (text.take i) i = placeAt text i := by
  unfold placeAt lineAt columnAt
  rw [List.take_take, min_self]

theorem foldl_after_placeAt {read : List Char} (hi : i ≤ text.length)
    (h : text.drop i = read ++ rest) :
    read.foldl Place.after (placeAt text i) = placeAt text (i + read.length) := by
  have hread : text.take i ++ read = text.take (i + read.length) := by
    rw [List.take_add, h, List.take_left']
    rfl
  have hlength : (text.take (i + read.length)).length = i + read.length := by
    rw [← hread, List.length_append, List.length_take_of_le hi]
  have hle : i + read.length ≤ text.length := hlength ▸ List.length_take_le' _ _
  calc read.foldl Place.after (placeAt text i)
      = read.foldl Place.after ((text.take i).foldl Place.after {}) := by
        rw [foldl_after_eq_placeAt (text.take i), List.length_take_of_le hi, placeAt_take]
    _ = (text.take (i + read.length)).foldl Place.after {} := by rw [← List.foldl_append, hread]
    _ = placeAt text (i + read.length) := by rw [foldl_after_eq_placeAt, hlength, placeAt_take]

theorem lineAt_lt_or_columnAt_lt (h : i < j) (hj : j ≤ text.length) :
    lineAt text i < lineAt text j ∨ lineAt text i = lineAt text j ∧
      columnAt text i < columnAt text j := by
  obtain ⟨k, rfl⟩ := Nat.exists_eq_add_of_lt h
  have htake : text.take (i + k + 1) = text.take i ++ (text.drop i).take (k + 1) := by
    rw [add_assoc, List.take_add]
  have hlength : ((text.drop i).take (k + 1)).length = k + 1 := by
    rw [List.length_take_of_le]
    rw [List.length_drop]
    omega
  have hcount : lineAt text (i + k + 1) =
      lineAt text i + ((text.drop i).take (k + 1)).count '\n' := by
    rw [lineAt, lineAt, htake, List.count_append]
    omega
  by_cases hmem : '\n' ∈ (text.drop i).take (k + 1)
  · have := List.count_pos_iff.2 hmem
    omega
  · have hall : ∀ c ∈ ((text.drop i).take (k + 1)).reverse, decide (c ≠ '\n') = true := fun c hc =>
      decide_eq_true fun hnl => hmem (hnl ▸ List.mem_reverse.1 hc)
    have hcolumn : columnAt text (i + k + 1) = k + 1 + columnAt text i := by
      rw [columnAt, columnAt, htake, List.reverse_append, List.takeWhile_append_of_pos hall,
        List.length_append, List.length_reverse, hlength]
    rw [List.count_eq_zero.2 hmem] at hcount
    omega

end places

section reports

/-- What is reported stands in the text, in order and before the place where the next piece
starts. -/
structure Report.Sound (text : List Char) (r : Report) : Prop where
  inside : r.place.offset ≤ text.length
  place : r.place = placeAt text r.place.offset
  index : ∀ k (t : Token), r.tokens[k]? = some t → t.index = k
  spans : ∀ t ∈ r.tokens, t.Spans text ∧ t.stop ≤ r.place.offset
  ordered : r.tokens.Pairwise fun t t' => t.stop ≤ t'.start
  placed : ∀ d ∈ r.diagnostics, ∃ i < r.place.offset, d.line = lineAt text i ∧
    d.column = columnAt text i
  increasing : r.diagnostics.Pairwise Diagnostic.Before

theorem Report.sound_empty (text : List Char) : ({} : Report).Sound text where
  inside := Nat.zero_le _
  place := rfl
  index _ _ := nofun
  spans := nofun
  ordered := .nil
  placed := nofun
  increasing := .nil

theorem index_concat {tokens : List Token} {last : Token}
    (h : ∀ k (t : Token), tokens[k]? = some t → t.index = k) (hlast : last.index = tokens.length) :
    ∀ k (t : Token), (tokens ++ [last])[k]? = some t → t.index = k := by
  intro k t hk
  rw [List.getElem?_append] at hk
  split at hk
  · exact h k t hk
  · rw [List.getElem?_singleton] at hk
    split at hk
    · obtain rfl := Option.some.inj hk
      omega
    · cases hk

theorem Report.place_add (r : Report) (p : Piece) :
    (r.add p).place = p.text.foldl Place.after r.place := by
  unfold Report.add
  dsimp only
  split <;> rfl

theorem Report.offset_add (r : Report) (p : Piece) :
    (r.add p).place.offset = r.place.offset + p.text.length := by
  rw [Report.place_add, offset_foldl_after]

theorem Report.Sound.before (h : r.Sound text) {d d' : Diagnostic} (hd : d ∈ r.diagnostics)
    (hline : d'.line = r.place.line) (hcolumn : d'.column = r.place.column) : d.Before d' := by
  obtain ⟨i, hi, hdline, hdcolumn⟩ := h.placed d hd
  unfold Diagnostic.Before
  rw [hdline, hdcolumn, hline, hcolumn, h.place]
  exact lineAt_lt_or_columnAt_lt hi h.inside

theorem Report.Sound.line_eq (h : r.Sound text) : r.place.line = lineAt text r.place.offset :=
  congrArg Place.line h.place

theorem Report.Sound.column_eq (h : r.Sound text) : r.place.column = columnAt text r.place.offset :=
  congrArg Place.column h.place

theorem Report.Sound.inside_add (h : r.Sound text)
    (hrest : text.drop r.place.offset = p.text ++ rest) :
    r.place.offset + p.text.length ≤ text.length := by
  have hinside := h.inside
  have hlength := congrArg List.length hrest
  rw [List.length_drop, List.length_append] at hlength
  omega

theorem Report.Sound.spans_next (h : r.Sound text) (hp : p.text ≠ [])
    (hrest : text.drop r.place.offset = p.text ++ rest) {t : Token}
    (hstart : t.start = r.place.offset) (hstop : t.stop = r.place.offset + p.text.length)
    (htext : t.text = String.ofList p.text) (hline : t.line = r.place.line)
    (hcolumn : t.column = r.place.column) : t.Spans text where
  start_lt := by
    rw [hstart, hstop]
    exact Nat.lt_add_of_pos_right (List.length_pos_iff.2 hp)
  stop_le := hstop ▸ h.inside_add hrest
  text_eq := by
    rw [htext, hstart, hstop, List.drop_take, Nat.add_sub_cancel_left, hrest, List.take_left]
  line_eq := by rw [hline, hstart, h.line_eq]
  column_eq := by rw [hcolumn, hstart, h.column_eq]

theorem Report.Sound.add (h : r.Sound text) (hp : p.text ≠ [])
    (hrest : text.drop r.place.offset = p.text ++ rest) : (r.add p).Sound text := by
  have hpos : 0 < p.text.length := List.length_pos_iff.2 hp
  have hoffset := r.offset_add p
  have hinside : (r.add p).place.offset ≤ text.length := hoffset ▸ h.inside_add hrest
  have hplace : (r.add p).place = placeAt text (r.add p).place.offset := by
    rw [hoffset, r.place_add, h.place]
    exact foldl_after_placeAt h.inside hrest
  -- what was reported before the piece is reported still, now further from the end
  have hspans (t : Token) (ht : t ∈ r.tokens) : t.Spans text ∧ t.stop ≤ (r.add p).place.offset := by
    obtain ⟨ht, hle⟩ := h.spans t ht
    exact ⟨ht, by omega⟩
  have hplaced (d : Diagnostic) (hd : d ∈ r.diagnostics) :
      ∃ i < (r.add p).place.offset, d.line = lineAt text i ∧ d.column = columnAt text i := by
    obtain ⟨i, hi, hd⟩ := h.placed d hd
    exact ⟨i, by omega, hd⟩
  obtain ⟨piece, fate⟩ := p
  cases fate with
  | skipped => exact ⟨hinside, hplace, h.index, hspans, h.ordered, hplaced, h.increasing⟩
  | token type channel =>
    refine ⟨hinside, hplace, fun k t hk => ?_, fun t ht => ?_, ?_, hplaced, h.increasing⟩
    · exact index_concat h.index rfl k t hk
    · obtain ht | ht := List.mem_append.1 ht
      · exact hspans t ht
      · obtain rfl := List.mem_singleton.1 ht
        exact ⟨h.spans_next hp hrest rfl (offset_foldl_after _) rfl rfl rfl,
          Nat.le_refl (piece.foldl Place.after r.place).offset⟩
    · refine List.pairwise_append.2 ⟨h.ordered, List.pairwise_singleton _ _, fun t ht t' ht' => ?_⟩
      obtain rfl := List.mem_singleton.1 ht'
      exact (h.spans t ht).2
  | refused =>
    refine ⟨hinside, hplace, h.index, hspans, h.ordered, fun d hd => ?_, ?_⟩
    · obtain hd | hd := List.mem_append.1 hd
      · exact hplaced d hd
      · obtain rfl := List.mem_singleton.1 hd
        exact ⟨r.place.offset, by omega, h.line_eq, h.column_eq⟩
    · refine List.pairwise_append.2 ⟨h.increasing, List.pairwise_singleton _ _,
        fun d hd d' hd' => ?_⟩
      obtain rfl := List.mem_singleton.1 hd'
      exact h.before hd rfl rfl

theorem Report.Sound.foldl_add (h : r.Sound text) (hpieces : ∀ p ∈ pieces, p.text ≠ [])
    (hrest : text.drop r.place.offset = pieces.flatMap Piece.text ++ left) :
    (pieces.foldl Report.add r).Sound text := by
  induction pieces generalizing r with
  | nil => exact h
  | cons p pieces ih =>
    obtain ⟨hp, hpieces⟩ := List.forall_mem_cons.1 hpieces
    rw [List.flatMap_cons, List.append_assoc] at hrest
    refine ih (h.add hp hrest) hpieces ?_
    rw [r.offset_add, ← List.drop_drop, hrest, List.drop_left]

end reports

theorem Cut.ne_nil {m : Modes} {held : List Char} (hfits : ∀ mode < net.modes.size, ∀ text found,
      longestMatch net mode text = .ok (some found) → found.Fits text.length)
    (hm : m.InRange net) (h : Cut net m held text pieces left) : ∀ p ∈ pieces, p.text ≠ [] := by
  induction h with
  | done => exact nofun
  | more _ _ _ ih => exact ih (hm.performAll _)
  | refused _ _ ih => exact List.forall_mem_cons.2 ⟨by simp, ih hm⟩
  | @ends m held text left pieces found hfound _ _ ih =>
    refine List.forall_mem_cons.2 ⟨fun hnil => ?_, ih (hm.performAll _)⟩
    obtain ⟨hpos, hle⟩ := hfits m.current ((List.forall_mem_cons.1 hm).1) text found hfound
    have := congrArg List.length (List.append_eq_nil_iff.1 hnil).2
    rw [List.length_take, List.length_nil] at this
    omega

/--
What a loaded lexer with a mode makes of any text. It is always in a mode that there is, whatever
commands it ran; each match takes some of the characters that are left; and nothing but a search
without end keeps it from an answer. In the answer the tokens are numbered, and each but the last
stands for characters of the text behind those of the one before, at their line and column. The last
is the end of input, at the end of the text. The diagnostics go forward through the text.
-/
theorem tokenize_sound {words : List Wire.Word} {options : LoadOptions}
    (hload : loadWords words options = .ok net) (hkind : net.kind = .lexer)
    (hmodes : 0 < net.modes.size) (input : String) :
    (∀ s rest, ReflTransGen (Round net) ({}, input.toList) (s, rest) → s.modes.InRange net ∧
      ∀ found, longestMatch net s.modes.current rest = .ok (some found) → found.Fits rest.length) ∧
    (∀ e, tokenize net input = .error e → e = .fault .unfinished) ∧
    ∀ tokens diagnostics, tokenize net input = .ok (tokens, diagnostics) →
      (∃ s, ReflTransGen (Round net) ({}, input.toList) (s, []) ∧ s.finish = tokens ∧
        s.diagnostics = diagnostics) ∧
      (∀ k (t : Token), tokens[k]? = some t → t.index = k) ∧
      (∃ body, tokens = body ++ [.endOfInput input.length (lineAt input.toList input.length)
          (columnAt input.toList input.length) body.length] ∧
        (∀ t ∈ body, t.Spans input.toList) ∧ body.Pairwise fun t t' => t.stop ≤ t'.start) ∧
      (∀ d ∈ diagnostics, ∃ i < input.length, d.line = lineAt input.toList i ∧
      d.column = columnAt input.toList i) ∧
      diagnostics.Pairwise Diagnostic.Before := by
  have hw := (loadWords_wired hload).1
  have hstart : ({} : Modes).InRange net := Modes.inRange_start hmodes
  have hfits (mode : Nat) (hmode : mode < net.modes.size) (text : List Char) (found : Match)
      (hfound : longestMatch net mode text = .ok (some found)) : found.Fits text.length :=
    (yields_longestMatch hw (closes_unfinished hw) hmode text).of_eq_ok hfound found rfl
  have htokenize : tokenize net input =
      (liftM (Scan.run net input.length {} input.toList) : Except RunError Scan) >>= fun s =>
        pure (s.finish, s.diagnostics) := by
    have hnot : net.modes.isEmpty = false := by
      simpa [Array.isEmpty_iff_size_eq_zero] using hmodes.ne'
    rw [tokenize, if_neg (not_not.2 hkind), if_neg (by simp [hnot])]
  have hrun := Scan.yields_run hw (closes_unfinished hw) (s := {}) hstart input.length_toList.le
  refine ⟨fun s rest hrounds => ?_, fun e he => ?_, fun tokens diagnostics h => ?_⟩
  · have hs : s.modes.InRange net := Scan.inRange_rounds hstart hrounds
    exact ⟨hs, hfits _ (List.forall_mem_cons.1 hs).1 rest⟩
  · rw [htokenize, bind_eq_error] at he
    rcases he with he | ⟨s, -, he⟩
    · obtain ⟨fault, hfault, rfl⟩ := mapError_eq_error.1 he
      rw [hrun.of_eq_error hfault]
    · cases he
  · rw [htokenize, bind_eq_ok] at h
    obtain ⟨s, hs, h⟩ := h
    have hs := liftM_run_eq_ok.1 hs
    obtain ⟨rfl, rfl⟩ := Prod.mk.inj (pure_eq_ok.1 h)
    obtain ⟨pieces, hcut, hreport, hhere⟩ := Scan.exists_cut (s := {}) rfl hs
    have hreport : pieces.foldl Report.add {} = s.report := hreport
    have hsound : s.report.Sound input.toList := hreport ▸ (Report.sound_empty _).foldl_add
      (hcut.ne_nil hfits hstart) hcut.covers
    have hhere : s.here = placeAt input.toList input.length := by
      rw [hhere, ← String.length_toList]
      exact foldl_after_eq_placeAt _
    refine ⟨⟨s, Scan.rounds_of_run hs, rfl, rfl⟩, fun k t hk => ?_, ⟨s.tokens, ?_,
      fun t ht => (hsound.spans t ht).1, hsound.ordered⟩, fun d hd => ?_, hsound.increasing⟩
    · exact index_concat hsound.index rfl k t hk
    · rw [Scan.finish, hhere]
      rfl
    · obtain ⟨i, hi, hd⟩ := hsound.placed d hd
      have hle := hsound.inside
      rw [String.length_toList] at hle
      exact ⟨i, by omega, hd⟩

open Wire in
/--
A lexer of one mode. A letter comes back to a saved mode when there is none; another is joined to
the next match, and goes into a mode that there is not; an end of line is skipped.
-/
def oneMode : List Word :=
  lexerWords [[6, 0xFFFF], [2, 0], [7, 0], [1, 0], [1, 0], [1, 0], [2, 1], [7, 1], [1, 1], [1, 1],
    [1, 1], [1, 1], [2, 2], [7, 2], [1, 2], [1, 2], [1, 2]] [[1, 1], [6, 2], [12, 3]]
    [eps 0 1, eps 0 6, eps 0 12, eps 1 3, atom 3 4 97, [4, 5, 6, 0, 0, 0], eps 5 2, eps 6 8,
      atom 8 9 98, [9, 10, 6, 1, 1, 0], [10, 11, 6, 1, 2, 0], eps 11 7, eps 12 14, atom 14 15 10,
      [15, 16, 6, 2, 3, 0], eps 16 13]
    [0] [[4, 0, 0], [3, 0, 0], [5, 7, 0], [6, 0, 0]]

/-- The tokens of a text in which the letters of the lexer stand on two lines. -/
def oneModeTokens : List Token :=
  [{ type := 1, channel := 0, start := 0, stop := 2, line := 1, column := 0, index := 0,
     text := "ba" },
   { type := 1, channel := 0, start := 5, stop := 6, line := 2, column := 2, index := 1,
     text := "a" },
   .endOfInput 6 2 3 2]

theorem tokenize_sound_oneMode : loadWords oneMode { optimize := false } = .ok (loaded oneMode) ∧
    (loaded oneMode).kind = .lexer ∧ 0 < (loaded oneMode).modes.size ∧
    tokenize (loaded oneMode) "ba\nb?a" = .ok (oneModeTokens,
      [{ line := 2, column := 0, message := "token recognition error at: 'b?'" }]) ∧
    (∀ s rest, ReflTransGen (Round (loaded oneMode)) ({}, "ba\nb?a".toList) (s, rest) →
      s.modes.InRange (loaded oneMode)) ∧
    (∀ t ∈ oneModeTokens.dropLast, t.Spans "ba\nb?a".toList) := by
  have hload : loadWords oneMode { optimize := false } = .ok (loaded oneMode) :=
    loadWords_loaded (by decide +kernel)
  have hkind : (loaded oneMode).kind = .lexer := by decide +kernel
  have hmodes : 0 < (loaded oneMode).modes.size := by decide +kernel
  have htokens : tokenize (loaded oneMode) "ba\nb?a" = .ok (oneModeTokens,
    [{ line := 2, column := 0, message := "token recognition error at: 'b?'" }]) := by
      decide +kernel
  obtain ⟨hrounds, -, hstream⟩ := tokenize_sound hload hkind hmodes "ba\nb?a"
  obtain ⟨-, -, ⟨body, hbody, hspans, -⟩, -, -⟩ := hstream _ _ htokens
  refine ⟨hload, hkind, hmodes, htokens, fun s rest h => (hrounds s rest h).1, ?_⟩
  rwa [hbody, List.dropLast_concat]

end Tokenizer

end GrammarWalk
