import GrammarWalk.Grammar.Basic
import GrammarWalk.Panel.Highlight
import Mathlib.Data.List.Nodup
import Mathlib.Data.List.TakeWhile
import Mathlib.Order.WellFounded

/-! The rules of a grammar text do not run into each other, if each has a line that ends it before
the comments of the next one. What ends a rule is a semicolon at the end of a line, literals and
comments apart. The search for it takes every double slash for a comment, and so it is right only
about lines that have none in a literal. -/

namespace GrammarWalk.RuleText

open Text Highlight

variable {line name a b : List Char} {next : Option (List Char)} {lines : List (List Char)}
  {first n : Nat}

section endings

/--
Cuts a text after its first quote that no backslash stands before; without one, at its end. A
backslash takes the next character with it.
-/
def literalEnd : List Char → List Char × List Char
  | [] => ([], [])
  | '\'' :: rest => (['\''], rest)
  | '\\' :: c :: rest =>
    let (literal, rest) := literalEnd rest
    ('\\' :: c :: literal, rest)
  | c :: rest =>
    let (literal, rest) := literalEnd rest
    (c :: literal, rest)

theorem literalEnd_append (text : List Char) :
    (literalEnd text).1 ++ (literalEnd text).2 = text := by
  fun_induction literalEnd text <;> simp_all

/-- A line up to a double slash that is in no literal, with a quote in the place of each literal. -/
def outside : List Char → List Char
  | '/' :: '/' :: _ => []
  | '\'' :: line => '\'' :: outside (literalEnd line).2
  | c :: line => c :: outside line
  | [] => []
termination_by line => line.length
decreasing_by all_goals grind [literalEnd_append]

/-- The literals of a line up to a double slash that is in none of them, without the quotes that
they begin with. -/
def literals : List Char → List (List Char)
  | '/' :: '/' :: _ => []
  | '\'' :: line => (literalEnd line).1 :: literals (literalEnd line).2
  | _ :: line => literals line
  | [] => []
termination_by line => line.length
decreasing_by all_goals grind [literalEnd_append]

/-- The last character that is not blank. -/
def lastVisible (line : List Char) : Option Char := (dropEndBlanks line).getLast?

/-- The line ends with a semicolon, literals and comments apart. -/
def EndsRule (line : List Char) : Prop := lastVisible (outside line) = some ';'

/-- No literal of the line has a double slash. -/
def SlashFree (line : List Char) : Prop := ∀ literal ∈ literals line, ¬ ['/', '/'] <:+: literal

theorem lastVisible_eq_find? (line : List Char) :
    lastVisible line = line.reverse.find? fun c => !isBlank c := by
  rw [lastVisible, dropEndBlanks, dropEndWhile, List.getLast?_reverse,
    List.find?_not_eq_head?_dropWhile]

theorem lastVisible_append (a b : List Char) :
    lastVisible (a ++ b) = (lastVisible b).or (lastVisible a) := by
  simp only [lastVisible_eq_find?, List.reverse_append, List.find?_append]

theorem lastVisible_cons (c : Char) (line : List Char) :
    lastVisible (c :: line) = (lastVisible line).or (lastVisible [c]) :=
  lastVisible_append [c] line

theorem lastVisible_quote : lastVisible ['\''] = some '\'' := by decide

/-- There is no comment up to the end of a text that has no double slash, and none begins there. -/
theorem code_append (hfree : ¬ ['/', '/'] <:+: a) (hlast : a.getLast? = some '/' → b = []) :
    code (a ++ b) = a ++ code b := by
  induction a with
  | nil => rfl
  | cons c a ih =>
    have htail : code (a ++ b) = a ++ code b := by
      refine ih (fun h => hfree (h.trans (List.infix_cons List.infix_rfl))) fun h => hlast ?_
      rw [List.getLast?_cons, h, Option.getD_some]
    have hstart : ∀ rest, c = '/' → a ++ b ≠ '/' :: rest := by
      rintro rest rfl heq
      cases a with
      | nil =>
        rw [List.nil_append, hlast rfl] at heq
        cases heq
      | cons d a =>
        obtain ⟨rfl, -⟩ := List.cons.inj heq
        exact hfree (List.prefix_append ['/', '/'] a).isInfix
    rw [List.cons_append, code.eq_2 _ _ hstart, htail, List.cons_append]

theorem literalEnd_cases (line : List Char) :
    (literalEnd line).1.getLast? = some '\'' ∨ (literalEnd line).2 = [] := by
  fun_induction literalEnd line with
  | case1 => exact .inr rfl
  | case2 rest => exact .inl rfl
  | case3 c rest literal left heq ih =>
    rw [heq] at ih
    exact ih.imp_left fun h => by simp [List.getLast?_cons, h]
  | case4 c rest _ _ literal left heq ih =>
    rw [heq] at ih
    exact ih.imp_left fun h => by simp [List.getLast?_cons, h]

theorem code_literal (h : ¬ ['/', '/'] <:+: (literalEnd line).1) :
    code ('\'' :: line) = '\'' :: ((literalEnd line).1 ++ code (literalEnd line).2) := by
  have hend : (literalEnd line).1.getLast? = some '/' → (literalEnd line).2 = [] := by
    intro hlast
    obtain hquote | hend := literalEnd_cases line
    · rw [hlast] at hquote
      cases hquote
    · exact hend
  rw [← code_append h hend, literalEnd_append]
  simp [code]

/-- Unless a line ends with a literal, its last character in the code is the one outside of the
literals. -/
theorem lastVisible_code (hfree : SlashFree line) (hlast : lastVisible (outside line) ≠ some '\'') :
    lastVisible (code line) = lastVisible (outside line) := by
  induction line using outside.induct with
  | case1 line => simp [code, outside]
  | case2 line ih =>
    rw [SlashFree, literals, List.forall_mem_cons] at hfree
    rw [outside, lastVisible_cons, lastVisible_quote] at hlast ⊢
    cases hrest : lastVisible (outside (literalEnd line).2) with
    | none => simp [hrest] at hlast
    | some c =>
      rw [hrest, Option.some_or] at hlast
      have hcode := ih hfree.2 (hrest ▸ hlast)
      rw [code_literal hfree.1, lastVisible_cons, lastVisible_append, hcode, hrest]
      rfl
  | case3 c line hslashes hquote ih =>
    rw [SlashFree, literals.eq_3 _ _ hslashes hquote] at hfree
    rw [outside.eq_3 _ _ hslashes hquote, lastVisible_cons] at hlast ⊢
    have hne : lastVisible (outside line) ≠ some '\'' := by
      intro h
      rw [h] at hlast
      exact hlast rfl
    rw [code.eq_2 _ _ hslashes, lastVisible_cons, ih hfree hne]
  | case4 => rw [code, outside]

theorem closes_of_endsRule (h : EndsRule line) (hfree : SlashFree line) : closes line = true := by
  have hlast : lastVisible (outside line) ≠ some '\'' := by
    rw [EndsRule] at h
    rw [h]
    decide
  have hcode : lastVisible (code line) = some ';' := (lastVisible_code hfree hlast).trans h
  rw [lastVisible] at hcode
  rw [closes, hcode]
  rfl

end endings

section declarations

/-- The text can be the name of a rule: it has letters, numbers and underscores only. -/
def IsName (name : List Char) : Prop := ∀ c ∈ name, isWordPart c = true

theorem startsWith_eq_false {p : Char → Bool} {text : List Char} :
    startsWith p text = false ↔ ∀ c ∈ text.head?, p c = false := by
  rw [startsWith]
  cases text.head? <;> simp

theorem startsWith_eq_true {p : Char → Bool} {text : List Char} :
    startsWith p text = true ↔ ∃ c ∈ text.head?, p c = true := by
  rw [startsWith]
  cases text.head? <;> simp

/-- What a declaration begins with: the name, and then a colon, perhaps behind blanks, or nothing
more. -/
theorem declares_eq_true (h : declares name line next = true) :
    ∃ rest, declarationPart line = name ++ rest ∧
    startsWith isWordPart rest = false ∧ ∀ c ∈ (dropBlanks rest).head?, c = ':' := by
  have hprefix : name.isPrefixOf (declarationPart line) = true := by
    by_contra hne
    rw [declares, after?, if_neg hne] at h
    cases h
  obtain ⟨rest, hrest⟩ := List.isPrefixOf_iff_prefix.1 hprefix
  rw [declares, after?, if_pos hprefix, ← hrest, List.drop_left] at h
  change (if startsWith isWordPart rest = true then _ else _) = true at h
  split at h
  · cases h
  · rename_i hword
    refine ⟨rest, hrest.symm, Bool.not_eq_true _ ▸ hword, fun c hc => ?_⟩
    obtain ⟨tail, hdrop⟩ := List.head?_eq_some_iff.1 hc
    simpa [hdrop, startsWith] using h

theorem takeWhile_isWordPart (hname : IsName name) (h : declares name line next = true) :
    (declarationPart line).takeWhile isWordPart = name := by
  obtain ⟨rest, hpart, hword, -⟩ := declares_eq_true h
  rw [hpart, List.takeWhile_append_of_pos hname]
  rw [startsWith_eq_false] at hword
  cases rest with
  | nil => simp
  | cons c rest => simp [hword c rfl]

theorem head?_of_isComment (h : isComment line = true) :
    ∃ c ∈ (dropBlanks line).head?, c = '/' ∨ c = '*' := by
  simp only [isComment, Bool.or_eq_true, List.isPrefixOf_iff_prefix] at h
  obtain (⟨rest, hrest⟩ | ⟨rest, hrest⟩) | h := h
  · exact ⟨'/', hrest ▸ rfl, .inl rfl⟩
  · exact ⟨'/', hrest ▸ rfl, .inl rfl⟩
  · obtain ⟨c, hc, heq⟩ := startsWith_eq_true.1 h
    exact ⟨c, hc, .inr (eq_of_beq heq)⟩

theorem not_isComment_of_declares (hname : IsName name) (h : declares name line next = true) :
    isComment line = false := by
  rw [← Bool.not_eq_true]
  intro hcomment
  obtain ⟨c, hc, hstart⟩ := head?_of_isComment hcomment
  obtain ⟨tail, hline⟩ := List.head?_eq_some_iff.1 hc
  have hpart : declarationPart line = c :: tail := by
    have hfragment : after? "fragment".toList (c :: tail) = none := by
      obtain rfl | rfl := hstart <;> rfl
    rw [declarationPart, hline, hfragment]
  have hblank : isBlank c = false := by obtain rfl | rfl := hstart <;> decide
  have hword : isWordPart c = false := by obtain rfl | rfl := hstart <;> decide
  obtain ⟨rest, hrest, -, hcolon⟩ := declares_eq_true h
  rw [hpart] at hrest
  cases name with
  | nil =>
    rw [List.nil_append] at hrest
    have hdrop : dropBlanks rest = c :: tail := by
      rw [← hrest]
      exact List.dropWhile_cons_of_neg (by simp [hblank])
    obtain rfl := hcolon c (hdrop ▸ rfl)
    simp at hstart
  | cons d name =>
    obtain ⟨rfl, -⟩ := List.cons.inj hrest
    rw [hname c List.mem_cons_self] at hword
    cases hword

theorem declares_of_declaration? (h : declaration? name lines = some n) :
    ∃ line, lines[n]? = some line ∧ declares name line lines[n + 1]? = true := by
  induction lines generalizing n with
  | nil => cases h
  | cons line lines ih =>
    rw [declaration?] at h
    split at h
    · rename_i hdeclares
      obtain rfl := Option.some.inj h
      exact ⟨line, rfl, by rwa [List.getElem?_cons_succ, ← List.head?_eq_getElem?]⟩
    · obtain ⟨m, hm, rfl⟩ := Option.map_eq_some_iff.1 h
      exact ih hm

end declarations

section places

/-- How many lines of comments stand right above a line, where the first line has the number 0. -/
def commentsAbove (lines : List (List Char)) (first : Nat) : Nat :=
  ((lines.take first).reverse.takeWhile isComment).length

/-- The first line from the given one on that closes a rule; without one, the last line. -/
def closingLine (lines : List (List Char)) (first : Nat) : Nat :=
  ((lines.drop first).findIdx? closes).elim (lines.length - 1) (first + ·)

theorem isComment_of_le_add (hstart : first ≤ n + commentsAbove lines first) (hn : n < first)
    (hfirst : first ≤ lines.length) (hline : lines[n]? = some line) : isComment line = true := by
  let above := (lines.take first).reverse
  have hsplit : lines.take first = (above.dropWhile isComment).reverse ++
      (above.takeWhile isComment).reverse := by
    rw [← List.reverse_append, List.takeWhile_append_dropWhile, List.reverse_reverse]
  have hlength : (above.dropWhile isComment).reverse.length + commentsAbove lines first =
      first := by
    have := congrArg List.length hsplit
    simp only [List.length_append, List.length_reverse, List.length_take, Nat.min_eq_left hfirst]
      at this ⊢
    exact this.symm
  rw [← List.getElem?_take_of_lt hn, hsplit, List.getElem?_append_right (by omega)] at hline
  exact List.mem_takeWhile_imp (List.mem_reverse.1 (List.mem_of_getElem? hline))

theorem le_closingLine (h : first < lines.length) : first ≤ closingLine lines first := by
  rw [closingLine]
  cases (lines.drop first).findIdx? closes with
  | none => exact Nat.le_sub_one_of_lt h
  | some k => exact Nat.le_add_right first k

theorem closingLine_le (hn : first ≤ n) (hline : lines[n]? = some line)
    (hcloses : closes line = true) : closingLine lines first ≤ n := by
  obtain ⟨k, rfl⟩ := Nat.exists_eq_add_of_le hn
  rw [← List.getElem?_drop] at hline
  rw [closingLine]
  cases hfind : (lines.drop first).findIdx? closes with
  | none =>
    rw [List.findIdx?_eq_none_iff] at hfind
    rw [hfind line (List.mem_of_getElem? hline)] at hcloses
    cases hcloses
  | some m =>
    obtain ⟨_, -, hbefore⟩ := List.findIdx?_eq_some_iff_getElem.1 hfind
    obtain ⟨hk, rfl⟩ := List.getElem?_eq_some_iff.1 hline
    exact Nat.add_le_add_left (Nat.le_of_not_lt fun hlt => hbefore k hlt hcloses) first

/-- Where a rule stands in the lines. -/
structure Placed (lines : List (List Char)) (r : RuleInfo) : Prop where
  declared : ∃ line, lines[r.declared - 1]? = some line ∧
    declares r.name.toList line lines[r.declared]? = true
  start_le : r.range.start.line ≤ r.declared
  comments : ∀ n line, r.range.start.line ≤ n → n < r.declared → lines[n - 1]? = some line →
    isComment line = true
  le_stop : r.declared ≤ r.range.stop.line
  stop_le : ∀ n line, r.declared ≤ n → lines[n - 1]? = some line → closes line = true →
    r.range.stop.line ≤ n

theorem locate_eq {name : String} (h : declaration? name.toList lines = some first) :
    locate lines name =
    { name, declared := first + 1
      range := {
        start := { line := first - commentsAbove lines first + 1, column := 0 }
        stop := { line := closingLine lines first + 1,
                  column := (lines[closingLine lines first]?.map utf8Length).getD 0 } } } := by
  rw [locate, h]
  rfl

theorem placed_locate {name : String} (h : 0 < (locate lines name).declared) :
    Placed lines (locate lines name) := by
  cases hfound : declaration? name.toList lines with
  | none =>
    rw [locate, hfound] at h
    cases h
  | some first =>
    obtain ⟨line, hline, hdeclares⟩ := declares_of_declaration? hfound
    have hlength := (List.getElem?_eq_some_iff.1 hline).1
    rw [locate_eq hfound]
    constructor
    · exact ⟨line, hline, hdeclares⟩
    · exact Nat.succ_le_succ (Nat.sub_le _ _)
    · intro n line hstart hn hline
      have hstart : first - commentsAbove lines first + 1 ≤ n := hstart
      have hn : n < first + 1 := hn
      exact isComment_of_le_add (by omega) (by omega) (Nat.le_of_lt hlength) hline
    · exact Nat.succ_le_succ (le_closingLine hlength)
    · intro n line hn hline hcloses
      have hn : first + 1 ≤ n := hn
      have hclosing := closingLine_le (Nat.le_sub_of_add_le hn) hline hcloses
      show closingLine lines first + 1 ≤ n
      omega

end places

section ranges

variable {rules : List RuleInfo} {r s : RuleInfo} {text : String} {names : List String}

/-- The rule `s` is the first one that is declared below `r`. -/
structure IsNext (rules : List RuleInfo) (r s : RuleInfo) : Prop where
  mem : s ∈ rules
  below : r.declared < s.declared
  first : ∀ t ∈ rules, r.declared < t.declared → s.declared ≤ t.declared

/-- There is a line of the kind `p` from the declaration of the rule on, above the comments of the
next rule. -/
def Ended (p : List Char → Prop) (lines : List (List Char)) (rules : List RuleInfo) (r : RuleInfo) :
    Prop :=
  ∃ n line, r.declared ≤ n ∧ lines[n - 1]? = some line ∧ p line ∧ ∀ s, IsNext rules r s →
    n < s.range.start.line

theorem ended_of_lt {p : List Char → Prop} (hn : r.declared ≤ n) (hline : lines[n - 1]? = some a)
    (ha : p a) (hbelow : ∀ s ∈ rules, r.declared < s.declared → n < s.range.start.line) :
    Ended p lines rules r :=
  ⟨n, a, hn, hline, ha, fun s hs => hbelow s hs.mem hs.below⟩

theorem exists_isNext (hs : s ∈ rules) (h : r.declared < s.declared) : ∃ t, IsNext rules r t := by
  obtain ⟨t, ⟨ht, hbelow⟩, hmin⟩ :=
    (measure RuleInfo.declared).wf.has_min {t | t ∈ rules ∧ r.declared < t.declared} ⟨s, hs, h⟩
  exact ⟨t, ht, hbelow, fun u hu hlt => Nat.le_of_not_lt (hmin u ⟨hu, hlt⟩)⟩

theorem Placed.declared_lt_start (hr : Placed lines r) (hs : Placed lines s)
    (hname : IsName r.name.toList) (h : r.declared < s.declared) :
    r.declared < s.range.start.line := by
  by_contra hle
  obtain ⟨line, hline, hdeclares⟩ := hr.declared
  have hcomment := hs.comments _ line (Nat.le_of_not_lt hle) h hline
  rw [not_isComment_of_declares hname hdeclares] at hcomment
  cases hcomment

theorem Placed.name_eq (hr : Placed lines r) (hs : Placed lines s) (hname : IsName r.name.toList)
    (hname' : IsName s.name.toList) (h : r.declared = s.declared) : r.name = s.name := by
  obtain ⟨line, hline, hdeclares⟩ := hr.declared
  obtain ⟨line', hline', hdeclares'⟩ := hs.declared
  rw [h, hline'] at hline
  obtain rfl := Option.some.inj hline
  rw [← String.toList_inj, ← takeWhile_isWordPart hname hdeclares,
    takeWhile_isWordPart hname' hdeclares']

@[simp] theorem name_locate (lines : List (List Char)) (name : String) :
    (locate lines name).name = name := by
  unfold locate
  split <;> rfl

theorem eq_locate (hr : r ∈ locateRules text names) :
    r.name ∈ names ∧ r = locate (Text.lines text) r.name := by
  obtain ⟨name, hname, rfl⟩ := List.mem_map.1 hr
  rw [name_locate]
  exact ⟨hname, rfl⟩

theorem eq_of_name_eq (hr : r ∈ locateRules text names) (hs : s ∈ locateRules text names)
    (h : r.name = s.name) : r = s := by
  rw [(eq_locate hr).2, (eq_locate hs).2, h]

theorem placed_of_mem (hr : r ∈ locateRules text names) (hlocated : 0 < r.declared) :
    Placed (Text.lines text) r := by
  obtain ⟨-, heq⟩ := eq_locate hr
  rw [heq] at hlocated ⊢
  exact placed_locate hlocated

/-- A rule that is ended before the next one ends above the comments of each rule that is declared
below it. -/
theorem stop_lt_start (hnames : ∀ name ∈ names, IsName name.toList)
    (hr : r ∈ locateRules text names) (hs : s ∈ locateRules text names) (hlocated : 0 < r.declared)
    (h : r.declared < s.declared)
    (hended : Ended (closes · = true) (Text.lines text) (locateRules text names) r) :
    r.range.stop.line < s.range.start.line := by
  obtain ⟨n, line, hn, hline, hcloses, hnext⟩ := hended
  have hstop := (placed_of_mem hr hlocated).stop_le n line hn hline hcloses
  obtain ⟨t, ht⟩ := exists_isNext hs h
  have hplaced := placed_of_mem ht.mem (Nat.zero_lt_of_lt ht.below)
  have hplaced' := placed_of_mem hs (Nat.zero_lt_of_lt h)
  have hname := hnames _ (eq_locate ht.mem).1
  have hstart : t.range.start.line ≤ s.range.start.line := by
    obtain hlt | heq := Nat.lt_or_eq_of_le (ht.first s hs h)
    · exact Nat.le_trans hplaced.start_le
        (Nat.le_of_lt (hplaced.declared_lt_start hplaced' hname hlt))
    · have hsame := hplaced.name_eq hplaced' hname (hnames _ (eq_locate hs).1) heq
      rw [eq_of_name_eq ht.mem hs hsame]
  exact Nat.lt_of_le_of_lt hstop (Nat.lt_of_lt_of_le (hnext t ht) hstart)

/-- The texts of the rules have no line in common, if they are in the text. -/
def Apart (r s : RuleInfo) : Prop :=
  0 < r.declared → 0 < s.declared → ∀ n, ¬ (r.range.hasLine n = true ∧ s.range.hasLine n = true)

theorem apart (hnames : ∀ name ∈ names, IsName name.toList)
    (hended : ∀ r ∈ locateRules text names, 0 < r.declared →
      Ended (closes · = true) (Text.lines text) (locateRules text names) r)
    (hr : r ∈ locateRules text names) (hs : s ∈ locateRules text names) (hne : r ≠ s) :
    Apart r s := by
  intro hlocated hlocated' n
  simp only [Range.hasLine, Bool.and_eq_true, decide_eq_true_eq]
  obtain hlt | heq | hlt := Nat.lt_trichotomy r.declared s.declared
  · have := stop_lt_start hnames hr hs hlocated hlt (hended r hr hlocated)
    omega
  · have hname :=
      (placed_of_mem hr hlocated).name_eq (placed_of_mem hs hlocated') (hnames _ (eq_locate hr).1)
      (hnames _ (eq_locate hs).1) heq
    exact absurd (eq_of_name_eq hr hs hname) hne
  · have := stop_lt_start hnames hs hr hlocated' hlt (hended s hs hlocated')
    omega

theorem nodup_locateRules (h : names.Nodup) : (locateRules text names).Nodup := by
  refine h.map fun name name' heq => ?_
  rw [← name_locate (Text.lines text) name, heq, name_locate]

theorem Placed.hasLine_declared (h : Placed lines r) : r.range.hasLine r.declared = true := by
  simp [Range.hasLine, h.start_le, h.le_stop]

theorem containing?_eq_some {g : Grammar} {i : Nat} (hapart : g.rules.toList.Pairwise Apart)
    (hi : g.rules.toList[i]? = some r) (hlocated : 0 < r.declared)
    (hline : r.range.hasLine n = true) : g.containing? n = some i := by
  rw [Grammar.containing?, List.findIdx?_eq_some_iff_getElem]
  obtain ⟨hlt, rfl⟩ := List.getElem?_eq_some_iff.1 hi
  simp only [Bool.and_eq_true, decide_eq_true_eq]
  refine ⟨hlt, ⟨hlocated, hline⟩, fun j hj hother => ?_⟩
  exact List.pairwise_iff_getElem.1 hapart j i _ hlt hj hother.1 hlocated n ⟨hother.2, hline⟩

/-- The rules of a text are apart, and each is found by the line of its declaration, if the names
are different and each rule has a line that ends it above the comments of the next one; a line with
a double slash in a literal does not count. -/
theorem locateRules_apart (source : String) (vocabulary : Vocabulary) (hdistinct : names.Nodup)
    (hnames : ∀ name ∈ names, IsName name.toList)
    (hended : ∀ r ∈ locateRules text names, 0 < r.declared → Ended
      (fun line => EndsRule line ∧ SlashFree line) (Text.lines text) (locateRules text names) r) :
    (locateRules text names).Pairwise Apart ∧ ∀ i r, (locateRules text names)[i]? = some r →
      0 < r.declared →
      (Grammar.ofText source text names vocabulary).containing? r.declared = some i := by
  have hclosed : ∀ r ∈ locateRules text names, 0 < r.declared →
      Ended (closes · = true) (Text.lines text) (locateRules text names) r := by
    intro r hr hlocated
    obtain ⟨n, line, hn, hline, ⟨hends, hfree⟩, hnext⟩ := hended r hr hlocated
    exact ⟨n, line, hn, hline, closes_of_endsRule hends hfree, hnext⟩
  have hapart : (locateRules text names).Pairwise Apart :=
    (nodup_locateRules hdistinct).pairwise_of_forall_ne fun r hr s hs hne =>
      apart hnames hclosed hr hs hne
  refine ⟨hapart, fun i r hi hlocated => ?_⟩
  exact containing?_eq_some hapart hi hlocated
    (placed_of_mem (List.mem_of_getElem? hi) hlocated).hasLine_declared

/-- Two rules with semicolons, quotes and slashes in their literals and comments. -/
def twoRules : String := "b : ';' // '\n  ; // b\n/* of a; */\nfragment a\n  : b '/' ; // '//'\n"

theorem locateRules_apart_twoRules :
    ["a", "b"].Nodup ∧ (∀ name ∈ ["a", "b"], IsName name.toList) ∧
    (∀ r ∈ locateRules twoRules ["a", "b"], 0 < r.declared ∧
      Ended (fun line => EndsRule line ∧ SlashFree line) (Text.lines twoRules)
      (locateRules twoRules ["a", "b"]) r) ∧
    (locateRules twoRules ["a", "b"]).Pairwise Apart ∧
    (Grammar.ofText "" twoRules ["a", "b"] {}).containing? 4 = some 0 := by
  have hrules : locateRules twoRules ["a", "b"] =
      [{ name := "a", declared := 4, range := { start := ⟨3, 0⟩, stop := ⟨5, 19⟩ } },
        { name := "b", declared := 1, range := { start := ⟨1, 0⟩, stop := ⟨2, 8⟩ } }] := by
    decide +kernel
  have hnames : ∀ name ∈ ["a", "b"], IsName name.toList := by
    simp [IsName]
    decide
  have hended : ∀ r ∈ locateRules twoRules ["a", "b"], 0 < r.declared ∧
      Ended (fun line => EndsRule line ∧ SlashFree line) (Text.lines twoRules)
      (locateRules twoRules ["a", "b"]) r := by
    rw [hrules]
    intro r hr
    obtain rfl | rfl := List.mem_pair.1 hr
    · refine ⟨by decide, ended_of_lt (n := 5) (a := "  : b '/' ; // '//'".toList) (by decide)
        (by decide +kernel) ⟨?_, ?_⟩ (by decide)⟩
      · simp [EndsRule, outside, literalEnd]
        decide
      · simp [SlashFree, literals, literalEnd]
        decide
    · refine ⟨by decide, ended_of_lt (n := 2) (a := "  ; // b".toList) (by decide)
        (by decide +kernel) ⟨?_, ?_⟩ (by decide)⟩
      · simp [EndsRule, outside]
        decide
      · simp [SlashFree, literals]
  obtain ⟨hapart, hfound⟩ :=
    locateRules_apart "" {} (by decide) hnames fun r hr _ => (hended r hr).2
  exact ⟨by decide, hnames, hended, hapart,
    hfound 0 { name := "a", declared := 4, range := { start := ⟨3, 0⟩, stop := ⟨5, 19⟩ } }
    (by rw [hrules]; rfl) (by decide)⟩

/-- Two rules, with a double slash in a literal of the first one. -/
def slashesRule : String := "a : '//' ;\nb : 'x' ;\n"

/-- Each of the rules is ended by its line, but the second one is in the text of the first, by which
it is found. -/
theorem locateRules_overlap : (∀ r ∈ locateRules slashesRule ["a", "b"], 0 < r.declared ∧
      Ended EndsRule (Text.lines slashesRule) (locateRules slashesRule ["a", "b"]) r) ∧
    ¬ (locateRules slashesRule ["a", "b"]).Pairwise Apart ∧
    (Grammar.ofText "" slashesRule ["a", "b"] {}).declaredAt? 2 = some 1 ∧
    (Grammar.ofText "" slashesRule ["a", "b"] {}).containing? 2 = some 0 := by
  have hrules : locateRules slashesRule ["a", "b"] =
      [{ name := "a", declared := 1, range := { start := ⟨1, 0⟩, stop := ⟨2, 9⟩ } },
        { name := "b", declared := 2, range := { start := ⟨2, 0⟩, stop := ⟨2, 9⟩ } }] := by
    decide +kernel
  refine ⟨?_, ?_, by decide +kernel, by decide +kernel⟩
  · rw [hrules]
    intro r hr
    obtain rfl | rfl := List.mem_pair.1 hr
    · refine ⟨by decide, ended_of_lt (n := 1) (a := "a : '//' ;".toList) (by decide)
        (by decide +kernel) ?_ (by decide)⟩
      simp [EndsRule, outside, literalEnd]
      decide
    · refine ⟨by decide, ended_of_lt (n := 2) (a := "b : 'x' ;".toList) (by decide)
        (by decide +kernel) ?_ (by decide)⟩
      simp [EndsRule, outside, literalEnd]
      decide
  · rw [hrules, List.pairwise_pair]
    intro hapart
    exact hapart (by decide) (by decide) 2 (by decide)

end ranges

end GrammarWalk.RuleText
