import GrammarWalk.Panel.Highlight

/-! The pieces of a line show the line. What a scan has come to is the text of its pieces and the
word it collects; at the start of each round this is the line up to the index, and at the end it is
the line. -/

namespace GrammarWalk.Highlight

open Screen

def shown (pieces : List Run) : List Char := (String.join (pieces.map (·.text))).toList

@[simp] theorem shown_concat (pieces : List Run) (r : Run) :
    shown (pieces ++ [r]) = shown pieces ++ r.text.toList := by
  simp [shown, String.toList_join]

namespace Scan

variable {s : Scan} {text : List Char} {style : Style}

def read (s : Scan) : List Char := shown s.runs ++ s.word

def Visible (s : Scan) : Prop := ∀ r ∈ s.runs, r.text ≠ ""

theorem word_flush (s : Scan) : s.flush.word = [] := by
  unfold flush
  split
  · rename_i h
    exact List.isEmpty_iff.1 h
  · rfl

theorem read_push (h : s.word = []) : (s.push text style).read = s.read ++ text := by
  simp [Scan.read, push, h]

theorem read_flush (s : Scan) : s.flush.read = s.read := by
  unfold flush
  split
  · rfl
  · simp [Scan.read, push]

theorem read_flush_push (s : Scan) : (s.flush.push text style).read = s.read ++ text := by
  rw [read_push s.word_flush, read_flush]

theorem Visible.push (h : s.Visible) (htext : text ≠ []) : (s.push text style).Visible := by
  intro r hr
  rcases List.mem_append.1 hr with hr | hr
  · exact h r hr
  · obtain rfl := List.mem_singleton.1 hr
    simpa using htext

theorem Visible.flush (h : s.Visible) : s.flush.Visible := by
  unfold Scan.flush
  split
  · exact h
  · rename_i hword
    have hpush : (s.push s.word (wordStyle s.word)).Visible := h.push (by simpa using hword)
    exact hpush

end Scan

section scan

variable {chars : List Char} {s t next : Scan} {more : Bool}

theorem Round.read (h : Round chars s next more) (hs : s.read = chars.take s.index) :
    next.read = if more then chars.take next.index else chars := by
  cases h with
  | ended hle => exact hs.trans (List.take_of_length_le hle)
  | comment => rw [Scan.read_flush_push, hs, List.take_append_drop]; rfl
  | @piece stop style hlt =>
    calc ({ s.flush.push ((chars.take stop).drop s.index) style with index := stop } : Scan).read
        = s.read ++ (chars.take stop).drop s.index := Scan.read_flush_push s
      _ = (chars.take stop).take s.index ++ (chars.take stop).drop s.index := by
        rw [hs, List.take_take, Nat.min_eq_left (Nat.le_of_lt hlt)]
      _ = chars.take stop := List.take_append_drop _ _
  | @letter c hc =>
    calc shown s.runs ++ (s.word ++ [c])
        = chars.take s.index ++ [c] := by rw [← List.append_assoc, ← hs]; rfl
      _ = chars.take (s.index + 1) := by rw [List.take_add_one, hc]; rfl

theorem Round.visible (h : Round chars s next more) (hs : s.Visible) : next.Visible := by
  cases h with
  | ended => exact hs
  | comment hlt => exact hs.flush.push (by simpa using hlt)
  | piece hlt hle =>
    refine hs.flush.push (List.ne_nil_of_length_pos ?_)
    rw [List.length_drop, List.length_take]
    omega
  | letter => exact hs

theorem scan_lossless (h : scan chars s = .ok t) (hs : s.read = chars.take s.index)
    (hv : s.Visible) : t.read = chars ∧ t.Visible := by
  fun_induction scan chars s with
  | case1 => cases h
  | case2 s next hstep =>
    obtain rfl := Except.ok.inj h
    have hround := round_of_step hstep
    exact ⟨hround.read hs, hround.visible hv⟩
  | case3 s next hstep ih =>
    have hround := round_of_step hstep
    exact ih h (hround.read hs) (hround.visible hv)

theorem exists_scan (chars : List Char) :
    ∃ s, scan chars {} = .ok s ∧ runs chars = s.flush.runs := by
  unfold runs
  split
  · rename_i s hs
    exact ⟨s, hs, rfl⟩
  · rename_i f hf
    exact (scan_ne_error hf).elim

end scan

/-- The pieces of a line, one after the other, are the line, and none of them is empty. The scan
takes no slice out of range, and goes on from each round further on in the line. -/
theorem runs_lossless (chars : List Char) :
    String.join ((runs chars).map (·.text)) = String.ofList chars ∧
      (∀ r ∈ runs chars, r.text ≠ "") ∧
      (∃ s, scan chars {} = .ok s ∧ runs chars = s.flush.runs) ∧
      ∀ s, ∃ next more, step chars s = .ok (next, more) ∧
        (more = true → s.index < next.index ∧ next.index ≤ chars.length) := by
  obtain ⟨t, ht, hruns⟩ := exists_scan chars
  obtain ⟨hread, hvisible⟩ := scan_lossless ht rfl nofun
  rw [← t.read_flush, Scan.read, Scan.word_flush, List.append_nil] at hread
  refine ⟨?_, hruns ▸ hvisible.flush, ⟨t, ht, hruns⟩, fun s => ?_⟩
  · rw [hruns, ← String.toList_inj, String.toList_ofList]
    exact hread
  · obtain ⟨next, more, hstep, hround⟩ := exists_step chars s
    refine ⟨next, more, hstep, ?_⟩
    rintro rfl
    exact hround.index_lt

end GrammarWalk.Highlight
