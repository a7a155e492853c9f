import GrammarWalk.Fault
import GrammarWalk.Panel.Theme
import GrammarWalk.Text.WordChar

/-!
Colours for a line of grammar text: comments, quoted literals, words and single characters. A scan
goes along the line by index and collects the characters of a word until one comes that is no part
of it.
-/

namespace GrammarWalk.Highlight

open Screen

def isWordPart (c : Char) : Bool := Text.isWordChar c || c == '_'

def keywords : List String :=
  ["grammar", "lexer", "parser", "fragment", "options", "tokens", "channels", "mode", "import",
   "returns", "locals", "EOF"]

/-- Keywords are bold. A first letter in upper case is a token's, one in lower case a rule's. -/
def wordStyle (word : List Char) : Style :=
  if keywords.contains (String.ofList word) then { foreground := some Theme.blue, bold := true }
  else match word with
    | c :: _ =>
      if c.isUpper then .colored Theme.cyan
      else if c.isLower then .colored Theme.yellow
      else .colored Theme.text
    | [] => .colored Theme.text

def charStyle (c : Char) : Style :=
  if [':', ';', '|'].contains c then .colored Theme.blue
  else if ['?', '*', '+', '~'].contains c then .colored Theme.orange
  else .colored Theme.text

/-- How far a scan has come. -/
structure Scan where
  runs : List Run := []
  /-- The word whose characters are being collected. -/
  word : List Char := []
  /-- The index of the next character. -/
  index : Nat := 0
deriving DecidableEq, Repr, Inhabited

namespace Scan

def push (s : Scan) (text : List Char) (style : Style) : Scan :=
  { s with runs := s.runs ++ [{ text := String.ofList text, style }] }

/-- Ends the word, if there is one. -/
def flush (s : Scan) : Scan :=
  if s.word.isEmpty then s else { s.push s.word (wordStyle s.word) with word := [] }

end Scan

/-- The characters from index `start` up to index `stop`. -/
def slice (chars : List Char) (start stop : Nat) : Except Fault (List Char) :=
  if start ≤ stop ∧ stop ≤ chars.length then .ok ((chars.take stop).drop start)
    else .error .dangling

/--
The index of the first quote from an index on that no backslash stands before. A backslash takes the
next character with it, so without a quote the index can be one past the end.
-/
def quoteFrom (chars : List Char) (i : Nat) : Nat :=
  if h : i < chars.length then
    if chars[i] = '\'' then i
    else quoteFrom chars (i + if chars[i] = '\\' then 2 else 1)
  else i
termination_by chars.length - i
decreasing_by split <;> omega

/-- One round of a scan, and whether it goes on. -/
def step (chars : List Char) (s : Scan) : Except Fault (Scan × Bool) :=
  match chars[s.index]? with
  | none => return (s, false)
  | some c =>
    if c = '/' ∧ chars[s.index + 1]? = some '/' then do
      let comment ← slice chars s.index chars.length
      return (s.flush.push comment (.colored Theme.grey), false)
    else if c = '\'' then do
      let stop := min (quoteFrom chars (s.index + 1) + 1) chars.length
      let literal ← slice chars s.index stop
      return ({ s.flush.push literal (.colored Theme.orange) with index := stop }, true)
    else if !isWordPart c then
      return ({ s.flush.push [c] (charStyle c) with index := s.index + 1 }, true)
    else return ({ s with word := s.word ++ [c], index := s.index + 1 }, true)

theorem le_quoteFrom (chars : List Char) (i : Nat) : i ≤ quoteFrom chars i := by
  fun_induction quoteFrom chars i with
  | case1 | case3 => exact Nat.le_refl _
  | case2 i h _ ih =>
    refine Nat.le_trans ?_ ih
    split <;> omega

theorem slice_eq_ok {chars : List Char} {start stop : Nat} (h : start ≤ stop)
    (hstop : stop ≤ chars.length) : slice chars start stop = .ok ((chars.take stop).drop start) :=
  if_pos ⟨h, hstop⟩

/-- What a round does: it ends the scan, or takes a character into the word, or ends the word and
adds a piece. -/
inductive Round (chars : List Char) (s : Scan) : Scan → Bool → Prop
  | ended : chars.length ≤ s.index → Round chars s s false
  | comment {style : Style} : s.index < chars.length →
      Round chars s (s.flush.push (chars.drop s.index) style) false
  | piece {stop : Nat} {style : Style} : s.index < stop → stop ≤ chars.length →
      Round chars s { s.flush.push ((chars.take stop).drop s.index) style with index := stop } true
  | letter {c : Char} : chars[s.index]? = some c →
      Round chars s { s with word := s.word ++ [c], index := s.index + 1 } true

/-- No round fails. -/
theorem exists_step (chars : List Char) (s : Scan) :
    ∃ next more, step chars s = .ok (next, more) ∧ Round chars s next more := by
  unfold step
  split
  · rename_i hnone
    exact ⟨s, false, rfl, .ended (List.getElem?_eq_none_iff.1 hnone)⟩
  · rename_i c hc
    obtain ⟨hlt, hchar⟩ := List.getElem?_eq_some_iff.1 hc
    split
    · rw [slice_eq_ok (Nat.le_of_lt hlt) (Nat.le_refl _), List.take_length]
      exact ⟨_, _, rfl, .comment hlt⟩
    · split
      · have hquote := le_quoteFrom chars (s.index + 1)
        have hstop : s.index < min (quoteFrom chars (s.index + 1) + 1) chars.length := by omega
        dsimp only
        rw [slice_eq_ok (Nat.le_of_lt hstop) (Nat.min_le_right _ _)]
        exact ⟨_, _, rfl, .piece hstop (Nat.min_le_right _ _)⟩
      · split
        · refine ⟨_, _, rfl, ?_⟩
          have hone : [c] = (chars.take (s.index + 1)).drop s.index := by
            rw [List.drop_take, Nat.add_sub_cancel_left, List.drop_eq_getElem_cons hlt, hchar]
            rfl
          rw [hone]
          exact .piece (Nat.lt_succ_self _) hlt
        · exact ⟨_, _, rfl, .letter hc⟩

theorem round_of_step {chars : List Char} {s next : Scan} {more : Bool}
    (h : step chars s = .ok (next, more)) : Round chars s next more := by
  obtain ⟨next', more', hstep, hround⟩ := exists_step chars s
  obtain ⟨rfl, rfl⟩ := Prod.mk.inj (Except.ok.inj (h.symm.trans hstep))
  exact hround

theorem Round.index_lt {chars : List Char} {s next : Scan} (h : Round chars s next true) :
    s.index < next.index ∧ next.index ≤ chars.length := by
  cases h with
  | piece hlt hle => exact ⟨hlt, hle⟩
  | letter hc => exact ⟨Nat.lt_succ_self _, (List.getElem?_eq_some_iff.1 hc).1⟩

/-- Goes on to the end of a line, or to a comment. -/
def scan (chars : List Char) (s : Scan) : Except Fault Scan :=
  match _h : step chars s with
  | .error f => .error f
  | .ok (next, false) => .ok next
  | .ok (next, true) => scan chars next
termination_by chars.length - s.index
decreasing_by
  have := (round_of_step _h).index_lt
  omega

theorem scan_ne_error {chars : List Char} {s : Scan} {f : Fault} : scan chars s ≠ .error f := by
  fun_induction scan chars s with
  | case1 s f' h =>
    obtain ⟨next, more, hstep, -⟩ := exists_step chars s
    exact nomatch h.symm.trans hstep
  | case2 => exact nofun
  | case3 s next _ ih => exact ih

/-- The pieces of a line. -/
def runs (chars : List Char) : List Run :=
  match h : scan chars {} with
  | .ok s => s.flush.runs
  | .error _ => (scan_ne_error h).elim

end GrammarWalk.Highlight
