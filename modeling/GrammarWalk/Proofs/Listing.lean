import GrammarWalk.Listing
import GrammarWalk.Proofs.Outcome
import GrammarWalk.Proofs.Text
import Mathlib.Data.List.TakeDrop

/-! Listings as they are written. Names may look like anything that stands on a line, blank lines
may be added between the sections, and the words may be broken over lines; what is read from such a
text is the listing that it was written from. -/

namespace GrammarWalk.Listing

open Text

/-- Nothing but blanks, on one line. -/
abbrev Blanks := { line : List Char // IsLine line ∧ isBlankLine line = true }

/-- What stands behind a comma: blanks, and perhaps a line break with blanks behind it. -/
structure Gap where
  blanks : Blanks
  indent : Option Blanks := none

/-- How a listing is laid out. -/
structure Layout where
  lineEnd : LineEnd
  /-- The blank lines at the top. -/
  above : List Blanks
  /-- The blank line that ends a section. -/
  closing : Section → Blanks
  /-- The blank lines between that and the next section. -/
  extra : Section → List Blanks
  /-- The section is left out if there are no names in it. -/
  omits : Section → Bool
  /-- What stands behind each comma between the words. -/
  gaps : Nat → Gap
  /-- The blank lines behind the words. If there are none, the text ends with the words. -/
  below : List Blanks

/-- The entry for a name; the word `null` stands for none. -/
def entryOf (name : Option String) : List Char := (name.getD "null").toList

namespace Layout

def sectionLines (f : Layout) (s : Section) (entries : List (List Char)) : List (List Char) :=
  s.header.toList :: (entries ++ (f.closing s :: f.extra s).map (·.1))

def optionalLines (f : Layout) (s : Section) (names : List String) : List (List Char) :=
  if names.isEmpty && f.omits s then [] else f.sectionLines s (names.map String.toList)

/-- The first of the lines with the words from `w` on, and the others. -/
def wordLines (gaps : Nat → Gap) (w : Wire.Word) : List Wire.Word → List Char × List (List Char)
  | [] => (digits w.toNat ++ [']'], [])
  | v :: words =>
    let (line, lines) := wordLines (fun i => gaps (i + 1)) v words
    let start := digits w.toNat ++ ',' :: (gaps 0).blanks.1
    match (gaps 0).indent with
    | none => (start ++ line, lines)
    | some indent => (start, (indent.1 ++ line) :: lines)

def networkLines (f : Layout) : List Wire.Word → List (List Char)
  | [] => [['[', ']']]
  | w :: words => ('[' :: (wordLines f.gaps w words).1) :: (wordLines f.gaps w words).2

/-- The lines of a listing from its first header to its last word. -/
def lines (f : Layout) (l : Listing) : List (List Char) :=
  f.sectionLines .literal (l.literal.map entryOf) ++
    (f.sectionLines .symbolic (l.symbolic.map entryOf) ++
    (f.sectionLines .rules (l.rules.map String.toList) ++ (f.optionalLines .channels l.channels ++
    (f.optionalLines .modes l.modes ++ (Section.network.header.toList :: f.networkLines l.words)))))

/-- The text of a listing. -/
def render (f : Layout) (l : Listing) : String :=
  String.ofList (f.lineEnd.text.intercalate (f.above.map (·.1) ++ (f.lines l ++ f.below.map (·.1))))

end Layout

/-- The text can be an entry: it stands on one line and is not blank. -/
structure IsEntry (line : List Char) : Prop where
  oneLine : IsLine line
  visible : isBlankLine line = false

/-- The names of the listing can be entries, no name is the word that stands for none, and there are
words. -/
structure Printable (l : Listing) : Prop where
  literal : ∀ name, some name ∈ l.literal → IsEntry name.toList ∧ name ≠ "null"
  symbolic : ∀ name, some name ∈ l.symbolic → IsEntry name.toList ∧ name ≠ "null"
  rules : ∀ name ∈ l.rules, IsEntry name.toList
  channels : ∀ name ∈ l.channels, IsEntry name.toList
  modes : ∀ name ∈ l.modes, IsEntry name.toList
  words : l.words ≠ []

variable {f : Layout} {l : Listing} {s s' : Section} {a b line : List Char}
  {body rest tail : List (List Char)} {lines : Lines}
  {gaps : Nat → Gap} {w : Wire.Word} {words : List Wire.Word} {names : List String}

section entries

theorem isBlankLine_append : isBlankLine (a ++ b) = (isBlankLine a && isBlankLine b) :=
  List.all_append

theorem IsEntry.append_left (ha : IsEntry a) (hb : IsLine b) : IsEntry (a ++ b) where
  oneLine := ha.oneLine.append hb
  visible := by rw [isBlankLine_append, ha.visible, Bool.false_and]

theorem IsEntry.append_right (ha : IsLine a) (hb : IsEntry b) : IsEntry (a ++ b) where
  oneLine := ha.append hb.oneLine
  visible := by rw [isBlankLine_append, hb.visible, Bool.and_false]

theorem IsEntry.dropEndWhile (h : IsEntry a) : dropEndWhile (· == '\r') a = a :=
  dropEndWhile_eq_self fun _ hc => beq_eq_false_iff_ne.2 fun heq => h.oneLine.last (heq ▸ hc)

theorem isEntry_header (s : Section) : IsEntry s.header.toList := by
  cases s <;> exact ⟨by decide, by decide⟩

theorem isEntry_null : IsEntry "null".toList := ⟨by decide, by decide⟩

theorem isEntry_digits (n : Nat) : IsEntry (digits n) where
  oneLine := isLine_of_forall fun c hc => by
    have hdigit := isDigit_of_mem_digits hc
    constructor
    all_goals
      rintro rfl
      cases hdigit
  visible := by
    obtain ⟨c, hc⟩ := List.exists_mem_of_ne_nil _ (digits_ne_nil n)
    rw [isBlankLine, List.all_eq_false]
    exact ⟨c, hc, by simp [isBlank_of_isDigit (isDigit_of_mem_digits hc)]⟩

theorem isEntry_of_mem_wordLines (gaps : Nat → Gap) (w : Wire.Word) (words : List Wire.Word) :
    IsEntry (Layout.wordLines gaps w words).1 ∧ ∀ line ∈ (Layout.wordLines gaps w words).2,
      IsEntry line := by
  induction words generalizing w gaps with
  | nil => exact ⟨(isEntry_digits _).append_left (by decide), nofun⟩
  | cons v words ih =>
    obtain ⟨hfirst, hothers⟩ := ih (fun i => gaps (i + 1)) v
    have hcomma : IsLine ([','] ++ (gaps 0).blanks.1) :=
      IsLine.append (by decide) (gaps 0).blanks.2.1
    have hstart : IsEntry (digits w.toNat ++ ',' :: (gaps 0).blanks.1) :=
      (isEntry_digits _).append_left hcomma
    rw [Layout.wordLines]
    cases (gaps 0).indent with
    | none => exact ⟨hstart.append_left hfirst.oneLine, hothers⟩
    | some indent =>
      refine ⟨hstart, fun line hline => ?_⟩
      obtain rfl | hline := List.mem_cons.1 hline
      · exact .append_right indent.2.1 hfirst
      · exact hothers line hline

theorem isEntry_of_mem_networkLines : ∀ line ∈ f.networkLines (w :: words), IsEntry line := by
  intro line hline
  obtain rfl | hline := List.mem_cons.1 hline
  · exact .append_right (a := ['[']) (by decide) (isEntry_of_mem_wordLines f.gaps w words).1
  · exact (isEntry_of_mem_wordLines f.gaps w words).2 line hline

theorem isEntry_of_names {names : List (Option String)}
    (h : ∀ name, some name ∈ names → IsEntry name.toList ∧ name ≠ "null") :
    ∀ line ∈ names.map entryOf, IsEntry line := by
  intro line hline
  obtain ⟨name, hname, rfl⟩ := List.mem_map.1 hline
  cases name with
  | none => exact isEntry_null
  | some name => exact (h name hname).1

theorem optionalName_entryOf {name : Option String} (h : name ≠ some "null") :
    optionalName (entryOf name) = name := by
  cases name with
  | none => rfl
  | some name =>
    have hne : name.toList ≠ "null".toList := fun heq => h (congrArg some (String.toList_inj.1 heq))
    rw [entryOf, Option.getD_some, optionalName, if_neg hne, String.ofList_toList]

end entries

section words

theorem intercalate_append_left :
    [' '].intercalate ((a ++ b) :: rest) = a ++ [' '].intercalate (b :: rest) := by
  cases rest <;> simp [List.intercalate_cons_cons]

theorem trim_digits (n : Nat) : trim (digits n) = digits n :=
  trim_eq_self (fun _ hc => isBlank_of_isDigit (isDigit_of_mem_digits (List.mem_of_head? hc)))
    fun _ hc => isBlank_of_isDigit (isDigit_of_mem_digits (List.mem_of_getLast? hc))

theorem comma_notMem (hblanks : isBlankLine a = true) (n : Nat) : ',' ∉ a ++ digits n := by
  intro h
  obtain h | h := List.mem_append.1 h
  · cases List.all_eq_true.1 hblanks _ h
  · cases isDigit_of_mem_digits h

/-- The text has the words between commas, with blanks before them, and a digit at either end. -/
structure Spells (words : List Wire.Word) (text : List Char) : Prop where
  first : ∃ c ∈ text.head?, c.isDigit = true
  last : ∃ c ∈ text.getLast?, c.isDigit = true
  parts : ∀ blanks, isBlankLine blanks = true →
    (splitOn ',' (blanks ++ text)).map trim = words.map (digits ·.toNat)

theorem spells_singleton (w : Wire.Word) : Spells [w] (digits w.toNat) where
  first := by
    obtain ⟨c, rest, hdigits⟩ := List.exists_cons_of_ne_nil (digits_ne_nil w.toNat)
    exact ⟨c, by rw [hdigits]; rfl,
      isDigit_of_mem_digits (n := w.toNat) (hdigits ▸ List.mem_cons_self)⟩
  last := by
    have hlast := List.getLast?_eq_some_getLast (digits_ne_nil w.toNat)
    exact ⟨_, hlast, isDigit_of_mem_digits (List.mem_of_getLast? hlast)⟩
  parts blanks hblanks := by
    rw [splitOn_of_notMem (comma_notMem hblanks _), List.map_singleton,
      trim_append_left hblanks, trim_digits]
    rfl

theorem Spells.cons (h : Spells words b) (ha : isBlankLine a = true) :
    Spells (w :: words) (digits w.toNat ++ ',' :: (a ++ b)) where
  first := by
    obtain ⟨c, hc, hdigit⟩ := (spells_singleton w).first
    exact ⟨c, by simp [List.head?_append, Option.mem_def.1 hc], hdigit⟩
  last := by
    obtain ⟨c, hc, hdigit⟩ := h.last
    exact ⟨c, by simp [List.getLast?_append, List.getLast?_cons, Option.mem_def.1 hc], hdigit⟩
  parts blanks hblanks := by
    rw [← List.append_assoc, splitOn_append_cons (comma_notMem hblanks _), List.map_cons,
      trim_append_left hblanks, trim_digits, h.parts a ha]
    rfl

/-- The lines of the words, put together with a blank between them, have the words up to the closing
bracket. -/
theorem spells_wordLines (gaps : Nat → Gap) (w : Wire.Word) (words : List Wire.Word) :
    ∃ text, Spells (w :: words) text ∧
    [' '].intercalate ((Layout.wordLines gaps w words).1 :: (Layout.wordLines gaps w words).2) =
    text ++ [']'] := by
  induction words generalizing w gaps with
  | nil => exact ⟨digits w.toNat, spells_singleton w, List.intercalate_singleton⟩
  | cons v words ih =>
    obtain ⟨text, htext, hjoined⟩ := ih (fun i => gaps (i + 1)) v
    rw [Layout.wordLines]
    cases (gaps 0).indent with
    | none =>
      refine ⟨_, htext.cons (gaps 0).blanks.2.2, ?_⟩
      rw [intercalate_append_left, hjoined]
      simp
    | some indent =>
      have hblank : isBlankLine ((gaps 0).blanks.1 ++ ' ' :: indent.1) = true := by
        rw [isBlankLine_append, (gaps 0).blanks.2.2, Bool.true_and]
        exact indent.2.2
      refine ⟨_, htext.cons hblank, ?_⟩
      rw [List.intercalate_cons_cons, intercalate_append_left, hjoined]
      simp

theorem listed_networkLines :
    listed (f.networkLines (w :: words)) = (w :: words).map (digits ·.toNat) := by
  obtain ⟨text, htext, hjoined⟩ := spells_wordLines f.gaps w words
  obtain ⟨c, hc, hfirst⟩ := htext.first
  obtain ⟨d, hd, hlast⟩ := htext.last
  obtain ⟨rest, rfl⟩ := List.head?_eq_some_iff.1 hc
  have hbracket : [' '].intercalate (f.networkLines (w :: words)) =
      '[' :: (c :: rest ++ [']']) := by
    rw [← hjoined]
    exact intercalate_append_left (a := ['['])
  have htrim : trim ('[' :: (c :: rest ++ [']'])) = '[' :: (c :: rest ++ [']']) := by
    refine trim_eq_self (fun e he => ?_) fun e he => ?_
    · obtain rfl := Option.some.inj he
      decide
    · obtain rfl := Option.some.inj ((List.getLast?_concat (l := '[' :: c :: rest)).symm.trans he)
      decide
  have hopen : ('[' :: (c :: rest ++ [']'])).dropWhile (· == '[') = c :: rest ++ [']'] := by
    have hne : ¬ (c == '[') = true := by
      rintro h
      rw [eq_of_beq h] at hfirst
      cases hfirst
    rw [List.dropWhile_cons_of_pos rfl, List.cons_append]
    exact List.dropWhile_cons_of_neg hne
  have hclose : dropEndWhile (· == ']') (c :: rest ++ [']']) = c :: rest := by
    rw [dropEndWhile_concat_of_pos rfl]
    refine dropEndWhile_eq_self fun e he => ?_
    obtain rfl := Option.some.inj (Option.mem_def.1 he |>.symm.trans hd)
    rw [beq_eq_false_iff_ne]
    rintro rfl
    cases hlast
  have hparts := htext.parts [] rfl
  rw [List.nil_append] at hparts
  rw [listed, hbracket, htrim, hopen, hclose, hparts, List.filter_eq_self]
  intro part hpart
  obtain ⟨v, -, rfl⟩ := List.mem_map.1 hpart
  simp [digits_ne_nil]

theorem word_digits (line : Nat) (w : Wire.Word) : word line (digits w.toNat) = .ok w := by
  have hw : w.toNat ≤ 0xFFFF := Nat.le_of_lt_succ w.toNat_lt
  rw [word, number?_digits hw]
  simp [pure, Except.pure]

theorem mapM_word (line : Nat) (words : List Wire.Word) :
    (words.map (digits ·.toNat)).mapM (word line) = .ok words := by
  induction words with
  | nil => rfl
  | cons w words ih => simp [word_digits, ih, bind, Except.bind, pure, Except.pure]

end words

section reading

/-- The lines that are left are these, perhaps after some blank ones. -/
def Ahead (lines : Lines) (texts : List (List Char)) : Prop :=
  ∃ above, lines.map (·.2) = above ++ texts ∧ ∀ a ∈ above, isBlankLine a = true

theorem skipBlankLines_eq (h : Ahead lines (line :: rest)) (hline : isBlankLine line = false) :
    ∃ n after, skipBlankLines lines = (n, line) :: after ∧ after.map (·.2) = rest := by
  obtain ⟨above, hlines, habove⟩ := h
  obtain ⟨blank, left, rfl, rfl, hleft⟩ := List.map_eq_append_iff.1 hlines
  obtain ⟨⟨n, _⟩, after, rfl, rfl, hafter⟩ := List.map_eq_cons_iff.1 hleft
  refine ⟨n, after, ?_, hafter⟩
  rw [skipBlankLines, List.dropWhile_append_of_pos fun a ha => habove _ (List.mem_map_of_mem ha)]
  exact List.dropWhile_cons_of_neg (by simp [hline])

theorem trim_header_beq (s s' : Section) :
    (trim s'.header.toList == s.header.toList) = decide (s' = s) := by
  cases s <;> cases s' <;> decide

theorem isAt_eq (h : Ahead lines (s'.header.toList :: rest)) : isAt s lines = decide (s' = s) := by
  obtain ⟨n, after, hskip, -⟩ := skipBlankLines_eq h (isEntry_header s').visible
  rw [isAt, hskip, List.head?_cons, Option.any_some, trim_header_beq]

theorem isAt_self (h : Ahead lines (s.header.toList :: rest)) : isAt s lines = true := by
  rw [isAt_eq h, decide_eq_true rfl]

theorem entries_eq_ok (h : Ahead lines (s.header.toList :: (body ++ rest)))
    (hbody : ∀ a ∈ body, IsEntry a) (hrest : ∀ a ∈ rest.head?, isBlankLine a = true) :
    ∃ after, entries s lines = .ok (body, after) ∧ after.map (·.2) = rest := by
  obtain ⟨n, after, hskip, hafter⟩ := skipBlankLines_eq h (isEntry_header s).visible
  have hat : isAt s ((n, s.header.toList) :: after) = true := isAt_self ⟨[], rfl, nofun⟩
  obtain ⟨read, left, rfl, rfl, rfl⟩ := List.map_eq_append_iff.1 hafter
  have hread : ∀ l ∈ read, (!isBlankLine l.2) = true := by
    intro l hl
    rw [(hbody l.2 (List.mem_map_of_mem hl)).visible]
    rfl
  have hleft : left.takeWhile (fun l => !isBlankLine l.2) = [] ∧
      left.dropWhile (fun l => !isBlankLine l.2) = left := by
    cases left with
    | nil => exact ⟨rfl, rfl⟩
    | cons l left =>
      have hblank := hrest l.2 rfl
      exact ⟨List.takeWhile_cons_of_neg (by simp [hblank]),
        List.dropWhile_cons_of_neg (by simp [hblank])⟩
  have hkept : (read.map fun l => dropEndWhile (· == '\r') l.2) = read.map (·.2) :=
    List.map_congr_left fun l hl => (hbody l.2 (List.mem_map_of_mem hl)).dropEndWhile
  refine ⟨left, ?_, rfl⟩
  rw [entries, hskip, if_pos hat, List.tail_cons, List.span_eq_takeWhile_dropWhile,
    List.takeWhile_append_of_pos hread, List.dropWhile_append_of_pos hread, hleft.1, hleft.2,
    List.append_nil]
  exact congrArg (fun entries => Except.ok (entries, left)) hkept

theorem entries_sectionLines (h : Ahead lines (f.sectionLines s body ++ rest))
    (hbody : ∀ a ∈ body, IsEntry a) :
    ∃ after, entries s lines = .ok (body, after) ∧ Ahead after rest := by
  rw [Layout.sectionLines, List.cons_append, List.append_assoc] at h
  obtain ⟨after, hread, hafter⟩ := entries_eq_ok h hbody (by simpa using (f.closing s).2.2)
  refine ⟨after, hread, _, hafter, fun a ha => ?_⟩
  obtain ⟨blanks, -, rfl⟩ := List.mem_map.1 ha
  exact blanks.2.2

/-- A section that may be left out is followed by the next header, and so is what stands before it
if it is left out. -/
theorem optionalLines_cases (f : Layout) (s s' : Section) (names : List String)
    (rest : List (List Char)) :
    ∃ t more, f.optionalLines s names ++ s'.header.toList :: rest = t.header.toList :: more ∧
      (t = s ∨ t = s') := by
  rw [Layout.optionalLines]
  split
  · exact ⟨s', rest, rfl, .inr rfl⟩
  · exact ⟨s, _, rfl, .inl rfl⟩

theorem optionalEntries_optionalLines
    (h : Ahead lines (f.optionalLines s names ++ s'.header.toList :: rest)) (hne : s' ≠ s)
    (hnames : ∀ name ∈ names, IsEntry name.toList) :
    ∃ after, optionalEntries s lines = .ok (names.map String.toList, after) ∧
      Ahead after (s'.header.toList :: rest) := by
  rw [Layout.optionalLines] at h
  split at h
  · rename_i hnone
    obtain rfl : names = [] := List.isEmpty_iff.1 (Bool.and_eq_true_iff.1 hnone).1
    refine ⟨lines, ?_, h⟩
    rw [optionalEntries, isAt_eq h, decide_eq_false hne]
    rfl
  · rw [optionalEntries, if_pos (isAt_self h)]
    refine entries_sectionLines h fun a ha => ?_
    obtain ⟨name, hname, rfl⟩ := List.mem_map.1 ha
    exact hnames name hname

theorem networkWords_networkLines
    (h : Ahead lines (Section.network.header.toList :: (f.networkLines words ++ tail)))
    (hwords : words ≠ []) (htail : ∀ a ∈ tail, isBlankLine a = true) :
    networkWords lines = .ok words := by
  obtain ⟨w, words, rfl⟩ := List.exists_cons_of_ne_nil hwords
  obtain ⟨after, hread, -⟩ :=
    entries_eq_ok h isEntry_of_mem_networkLines fun a ha => htail a (List.mem_of_head? ha)
  simp only [networkWords, isAt_self h, hread, bind, Except.bind, pure, Except.pure,
    listed_networkLines, mapM_word]
  rfl

theorem isLine_of_mem_sectionLines (hbody : ∀ a ∈ body, IsEntry a) :
    ∀ a ∈ f.sectionLines s body, IsLine a := by
  intro a ha
  rw [Layout.sectionLines, List.mem_cons, List.mem_append, List.mem_map] at ha
  obtain rfl | ha | ⟨blanks, -, rfl⟩ := ha
  · exact (isEntry_header s).oneLine
  · exact (hbody a ha).oneLine
  · exact blanks.2.1

theorem isLine_of_mem_lines (h : l.Printable) : ∀ a ∈ f.lines l, IsLine a := by
  have names {s : Section} {names : List String} (hnames : ∀ name ∈ names, IsEntry name.toList) :
      ∀ a ∈ f.sectionLines s (names.map String.toList), IsLine a := by
    refine isLine_of_mem_sectionLines fun a ha => ?_
    obtain ⟨name, hname, rfl⟩ := List.mem_map.1 ha
    exact hnames name hname
  have optional {s : Section} {names' : List String}
    (hnames : ∀ name ∈ names', IsEntry name.toList) :
      ∀ a ∈ f.optionalLines s names', IsLine a := by
    rw [Layout.optionalLines]
    split
    · exact nofun
    · exact names hnames
  intro a ha
  simp only [Layout.lines, List.mem_append, List.mem_cons] at ha
  obtain ha | ha | ha | ha | ha | rfl | ha := ha
  · exact isLine_of_mem_sectionLines (isEntry_of_names h.literal) a ha
  · exact isLine_of_mem_sectionLines (isEntry_of_names h.symbolic) a ha
  · exact names h.rules a ha
  · exact optional h.channels a ha
  · exact optional h.modes a ha
  · exact (isEntry_header _).oneLine
  · obtain ⟨w, words, hwords⟩ := List.exists_cons_of_ne_nil h.words
    rw [hwords] at ha
    exact (isEntry_of_mem_networkLines a ha).oneLine

theorem getLast?_lines (h : l.Printable) : (f.lines l).getLast? ≠ some [] := by
  intro hlast
  obtain ⟨w, words, hwords⟩ := List.exists_cons_of_ne_nil h.words
  have hnetwork : (f.lines l).getLast? = (f.networkLines (w :: words)).getLast? := by
    simp [Layout.lines, hwords, Layout.networkLines, List.getLast?_append, List.getLast?_cons]
  rw [hnetwork] at hlast
  cases (isEntry_of_mem_networkLines _ (List.mem_of_getLast? hlast)).visible

theorem ahead_numbered (h : l.Printable) :
    ∃ tail, Ahead (numbered (f.render l)) (f.lines l ++ tail) ∧
      ∀ a ∈ tail, isBlankLine a = true := by
  have blank {blanks : List Blanks} : ∀ a ∈ blanks.map (·.1), IsLine a ∧ isBlankLine a = true := by
    intro a ha
    obtain ⟨b, -, rfl⟩ := List.mem_map.1 ha
    exact b.2
  have hread : (numbered (f.render l)).map (·.2) =
      linesFrom []
      (f.lineEnd.text.intercalate (f.above.map (·.1) ++ (f.lines l ++ f.below.map (·.1)))) := by
    simp [numbered, Function.comp_def, Text.lines, Layout.render]
  rw [linesFrom_intercalate] at hread
  · split at hread
    · rename_i hlast
      cases hbelow : f.below.map (·.1) with
      | nil =>
        rw [hbelow, List.append_nil, List.getLast?_append_of_ne_nil _ (by simp [Layout.lines])]
          at hlast
        exact absurd hlast (getLast?_lines h)
      | cons b below =>
        rw [hbelow, ← List.append_assoc, List.dropLast_append_of_ne_nil (List.cons_ne_nil b below),
          List.append_assoc] at hread
        refine ⟨_, ⟨_, hread, fun a ha => (blank a ha).2⟩, fun a ha => ?_⟩
        exact (blank a (hbelow ▸ List.dropLast_subset _ ha)).2
    · exact ⟨_, ⟨_, hread, fun a ha => (blank a ha).2⟩, fun a ha => (blank a ha).2⟩
  · intro a ha
    rw [List.mem_append, List.mem_append] at ha
    obtain ha | ha | ha := ha
    · exact (blank a ha).1
    · exact isLine_of_mem_lines h a ha
    · exact (blank a ha).1

end reading

theorem map_optionalName {names : List (Option String)}
    (h : ∀ name, some name ∈ names → IsEntry name.toList ∧ name ≠ "null") :
    (names.map entryOf).map optionalName = names := by
  rw [List.map_map]
  conv_rhs => rw [← List.map_id names]
  refine List.map_congr_left fun name hname => optionalName_entryOf ?_
  rintro rfl
  exact (h _ hname).2 rfl

/-- A listing that can be written is read back from its text, in whichever way that is laid out. -/
theorem parse_render (f : Layout) (l : Listing) (h : l.Printable) : parse (f.render l) = .ok l := by
  obtain ⟨tail, hahead, htail⟩ := ahead_numbered (f := f) h
  rw [Layout.lines, List.append_assoc] at hahead
  obtain ⟨_, hliteral, hahead⟩ := entries_sectionLines hahead (isEntry_of_names h.literal)
  rw [List.append_assoc] at hahead
  obtain ⟨_, hsymbolic, hahead⟩ := entries_sectionLines hahead (isEntry_of_names h.symbolic)
  rw [List.append_assoc] at hahead
  obtain ⟨_, hrules, hahead⟩ := entries_sectionLines hahead (by simpa using h.rules)
  rw [List.append_assoc, List.append_assoc, List.cons_append] at hahead
  obtain ⟨s, rest, heq, hs⟩ :=
    optionalLines_cases f .modes .network l.modes (f.networkLines l.words ++ tail)
  rw [heq] at hahead
  obtain ⟨_, hchannels, hahead⟩ :=
    optionalEntries_optionalLines hahead (by rintro rfl; simp at hs) h.channels
  rw [← heq] at hahead
  obtain ⟨_, hmodes, hahead⟩ := optionalEntries_optionalLines hahead (by decide) h.modes
  have hwords := networkWords_networkLines hahead h.words htail
  have hstrings (names : List String) : (names.map String.toList).map String.ofList = names := by
    simp [Function.comp_def]
  simp only [parse, hliteral, hsymbolic, hrules, hchannels, hmodes, hwords, bind, Except.bind, pure,
    Except.pure, hstrings, map_optionalName h.literal, map_optionalName h.symbolic]

/-- Names that look like headers and brackets; no channels. -/
def oddNames : Listing where
  literal := [none, some "null "]
  symbolic := [none, some "atn:"]
  rules := ["channel names:", "[2"]
  modes := ["null"]
  words := [3, 65535, 7]

/-- Lines that end with a carriage return as well, blank lines between the sections, no channels,
and a line break in the words. -/
def looseLayout : Layout where
  lineEnd := .returnFeed
  above := []
  closing _ := ⟨[], by decide⟩
  extra s := if s = .literal then [⟨[' '], by decide⟩, ⟨[], by decide⟩] else []
  omits s := s = .channels
  gaps i := if i = 0 then { blanks := ⟨[' '], by decide⟩ }
    else { blanks := ⟨[], by decide⟩, indent := some ⟨[' '], by decide⟩ }
  below := []

theorem parse_render_oddNames : oddNames.Printable ∧
    looseLayout.render oddNames = "token literal names:\r\nnull\r\nnull \r\n\r\n \r\n\r\ntoken symbolic names:\r\nnull\r\natn:\r\n\r\n" ++
      "rule names:\r\nchannel names:\r\n[2\r\n\r\nmode names:\r\nnull\r\n\r\natn:\r\n[3, 65535,\r\n 7]" ∧
    parse (looseLayout.render oddNames) = .ok oddNames := by
  have entry {line : List Char} (h : (decide (IsLine line) && !isBlankLine line) = true) :
      IsEntry line := by
    simp only [Bool.and_eq_true, decide_eq_true_eq, Bool.not_eq_true'] at h
    exact ⟨h.1, h.2⟩
  have hprintable : oddNames.Printable := by
    constructor
    all_goals simp [oddNames]
    · exact entry (by decide)
    · exact entry (by decide)
    · exact ⟨entry (by decide), entry (by decide)⟩
    · exact entry (by decide)
  exact ⟨hprintable, by decide +kernel, parse_render looseLayout oddNames hprintable⟩

end GrammarWalk.Listing
