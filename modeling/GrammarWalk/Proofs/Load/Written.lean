import GrammarWalk.Proofs.Load.Decode
import GrammarWalk.Wire.Encode

/-! What a reader makes of words that were written for it. A part of a stream is read up to its end
and no further, so that the parts of a stream are read one by one as they were written. -/

namespace GrammarWalk.Wire

open Reader

namespace Reader

variable {α β : Type} {read : Reader α} {words words' : List Word} {P Q : α → Prop}

/-- Where the words come next, the reader takes these and no others, and what it gives has the
property. It may fail. -/
def Reads (read : Reader α) (words : List Word) (P : α → Prop) : Prop :=
  ∀ o rest a c, read { offset := o, rest := words ++ rest } = .ok (a, c) →
    c = { offset := o + words.length, rest } ∧ P a

namespace Reads

theorem imp (h : Reads read words P) (hP : ∀ a, P a → Q a) : Reads read words Q :=
  fun o rest a c hread => (h o rest a c hread).imp_right (hP a)

theorem of_gives (h : Reads read words fun _ => True) (hP : ∀ c a c', read c = .ok (a, c') → P a) :
    Reads read words P :=
  fun o rest a c hread => (h o rest a c hread).imp_right fun _ => hP _ _ _ hread

theorem bind {f : α → Reader β} {R : β → Prop} (h : Reads read words P)
    (hf : ∀ a, P a → Reads (f a) words' R) : Reads (read >>= f) (words ++ words') R := by
  intro o rest b c hread
  obtain ⟨a, d, ha, hb⟩ := bind_reads.1 hread
  rw [List.append_assoc] at ha
  obtain ⟨rfl, hP⟩ := h _ _ _ _ ha
  rw [List.length_append, ← Nat.add_assoc]
  exact hf a hP _ _ _ _ hb

theorem bind_nil {f : α → Reader β} {R : β → Prop} (h : Reads read [] P)
    (hf : ∀ a, P a → Reads (f a) words R) : Reads (read >>= f) words R :=
  h.bind hf

theorem bind_last {f : α → Reader β} {R : β → Prop} (h : Reads read words P)
    (hf : ∀ a, P a → Reads (f a) [] R) : Reads (read >>= f) words R := by
  simpa using h.bind hf

theorem pure {a : α} (h : P a) : Reads (Pure.pure a) [] P := by
  intro o rest b c hread
  obtain ⟨rfl, rfl⟩ := pure_reads.1 hread
  exact ⟨rfl, h⟩

theorem fail {e : FormatError} : Reads (fail e) words P :=
  fun _ _ _ _ hread => (fail_reads.1 hread).elim

theorem reject {d : Defect} : Reads (reject d) words P :=
  fun _ _ _ _ hread => (reject_reads.1 hread).elim

theorem liftM_load {x : Except LoadError α} (h : ∀ a, x = .ok a → P a) : Reads (liftM x) [] P := by
  intro o rest a c hread
  obtain ⟨hx, rfl⟩ := liftM_load_reads.1 hread
  exact ⟨rfl, h a hx⟩

theorem liftM_fault {x : Except Fault α} (h : ∀ a, x = .ok a → P a) : Reads (liftM x) [] P := by
  intro o rest a c hread
  obtain ⟨hx, rfl⟩ := liftM_fault_reads.1 hread
  exact ⟨rfl, h a hx⟩

theorem ite {p : Prop} [Decidable p] {read' : Reader α} (h : p → Reads read words P)
    (h' : ¬ p → Reads read' words P) :
    Reads (if p then read else read') words P := by
  split
  · exact h ‹_›
  · exact h' ‹_›

theorem guard {p : Prop} [Decidable p] {d : Defect} (h : Reads read words P) :
    Reads (if p then Reader.reject d >>= fun (_ : PUnit) => read else read) words P := by
  have hno : Reads (Reader.reject d : Reader PUnit) [] fun _ => False := .reject
  exact .ite (fun _ => hno.bind_nil fun _ h => h.elim) fun _ => h

theorem offset : Reads offset [] fun _ => True := by
  intro o rest a c hread
  obtain ⟨rfl, rfl⟩ := Prod.mk.inj (Except.ok.inj hread)
  exact ⟨rfl, trivial⟩

theorem word (w : Word) : Reads word [w] (· = w.toNat) := by
  intro o rest a c hread
  obtain ⟨rfl, rfl⟩ := Prod.mk.inj (Except.ok.inj hread)
  exact ⟨rfl, rfl⟩

theorem bind_word {f : Nat → Reader α} {w : Word} (h : Reads (f w.toNat) words P) :
    Reads (Reader.word >>= f) (w :: words) P :=
  (word w).bind fun n hn => by rwa [hn]

theorem refer {net : Network} {what : Reference} {s : Nat} :
    Reads (refer net what s) [] fun _ => True :=
  .ite (fun _ => .pure trivial) fun _ => .reject

theorem forM {f : β → Reader PUnit} (h : ∀ b, Reads (f b) [] fun _ => True) (l : List β) :
    Reads (l.forM f) [] fun _ => True := by
  induction l with
  | nil => exact .pure trivial
  | cons b l ih => exact (h b).bind_nil fun _ _ => ih

theorem tagged {part : Part} {ofTag? : Nat → Option α} {a : α} {tag : Nat}
    (htag : tag < UInt16.size) (h : ofTag? tag = some a) :
    Reads (tagged part ofTag?) [UInt16.ofNat tag] (· = a) := by
  refine offset.bind_nil fun _ _ => (word _).bind_last fun n hn => ?_
  rw [UInt16.toNat_ofNat_of_lt' htag] at hn
  rw [hn, h]
  exact .pure rfl

theorem times {R : β → α → Prop} {items : List β} {chunks : List (List Word)}
    (h : List.Forall₂ (fun b words => Reads read words (R b)) items chunks) :
    Reads (times read items.length) chunks.flatten fun as => List.Forall₂ R items as := by
  induction h with
  | nil => exact .pure .nil
  | cons hb _ ih => exact hb.bind fun a ha => ih.bind_last fun as has => .pure (.cons ha has)

theorem iterate {step : α → Reader α} {I : List β → α → Prop} {items : List β}
    {chunks : List (List Word)}
    (h : List.Forall₂ (fun b words => ∀ done a, I done a →
      Reads (step a) words (I (done ++ [b]))) items chunks) (done : List β) {a : α}
    (ha : I done a) : Reads (iterate step items.length a) chunks.flatten (I (done ++ items)) := by
  induction h generalizing done a with
  | nil => exact .pure (by simpa using ha)
  | @cons b words items chunks hb _ ih =>
    refine (hb done a ha).bind fun a' ha' => ?_
    simpa using ih (done ++ [b]) ha'

end Reads

end Reader

variable {α β : Type} {words : List Word}

section written

theorem putInt_eq_ok {what : Item} {value : Int} :
    putInt what value = .ok words ↔ (0 ≤ value ∧ value ≤ 0xFFFF) ∧
      words = [UInt16.ofNat value.toNat] := by
  unfold putInt
  split
  · rw [pure_eq_ok, eq_comm, and_iff_right ‹_›]
  · rw [throw_ne_ok, false_iff]
    exact fun h => absurd h.1 ‹_›

theorem join_eq_ok {parts : List Written} :
    join parts = .ok words ↔ ∃ chunks, List.Forall₂
      (fun part words => part = .ok words) parts chunks ∧
      words = chunks.flatten := by
  simp only [join, bind_eq_ok, pure_eq_ok, mapM_eq_ok, id, eq_comm (b := words)]

theorem join_nil : join [] = .ok words ↔ words = [] := by
  rw [join_eq_ok]
  exact ⟨fun ⟨_, .nil, h⟩ => h, fun h => ⟨[], .nil, h⟩⟩

theorem join_cons {part : Written} {parts : List Written} :
    join (part :: parts) = .ok words ↔ ∃ first, part = .ok first ∧ ∃ rest, join parts = .ok rest ∧
      words = first ++ rest := by
  simp only [join_eq_ok]
  constructor
  · rintro ⟨_, _ | ⟨hfirst, hrest⟩, rfl⟩
    exact ⟨_, hfirst, _, ⟨_, hrest, rfl⟩, List.flatten_cons⟩
  · rintro ⟨first, hfirst, _, ⟨chunks, hrest, rfl⟩, rfl⟩
    exact ⟨first :: chunks, .cons hfirst hrest, List.flatten_cons.symm⟩

theorem putList_eq_ok {count : Item} {put : α → Written} {items : List α} :
    putList count put items = .ok words ↔ items.length ≤ 0xFFFF ∧ ∃ chunks,
      List.Forall₂ (fun a words => put a = .ok words) items chunks ∧
        words = UInt16.ofNat items.length :: chunks.flatten := by
  rw [putList, join_eq_ok]
  constructor
  · rintro ⟨_, _ | ⟨hcount, hitems⟩, rfl⟩
    obtain ⟨⟨-, hle⟩, rfl⟩ := putInt_eq_ok.1 hcount
    exact ⟨by omega, _, List.forall₂_map_left_iff.1 hitems, by simp⟩
  · rintro ⟨hle, chunks, hitems, rfl⟩
    exact ⟨_, .cons (putInt_eq_ok.2 ⟨by omega, rfl⟩) (List.forall₂_map_left_iff.2 hitems), by simp⟩

theorem toNat_word {n : Nat} (h : n ≤ 0xFFFF) : (UInt16.ofNat n).toNat = n :=
  UInt16.toNat_ofNat_of_lt' (Nat.lt_succ_of_le h)

theorem reads_putInt {what : Item} {value : Int} (h : putInt what value = .ok words) :
    Reads word words fun n => (n : Int) = value := by
  obtain ⟨hrange, rfl⟩ := putInt_eq_ok.1 h
  refine (Reads.word _).imp fun n hn => ?_
  rw [hn, toNat_word (by omega), Int.toNat_of_nonneg hrange.1]

theorem reads_putNat {what : Item} {value : Nat} (h : putNat what value = .ok words) :
    Reads word words (· = value) :=
  (reads_putInt h).imp fun _ => Int.ofNat.inj

theorem reads_putList {count : Item} {put : β → Written} {read : Reader α} {R : β → α → Prop}
    {items : List β} (h : putList count put items = .ok words)
    (hread : ∀ b words, put b = .ok words → Reads read words (R b)) :
    Reads (counted read) words fun as => List.Forall₂ R items as := by
  obtain ⟨hle, chunks, hitems, rfl⟩ := putList_eq_ok.1 h
  refine .bind_word ?_
  rw [toNat_word hle]
  exact .times (hitems.imp hread)

theorem reads_putSteps {count : Item} {put : β → Written} {step : α → Reader α}
    {I : List β → α → Prop} {items : List β} {a : α} (h : putList count put items = .ok words)
    (hstep : ∀ b words, put b = .ok words → ∀ done a, I done a →
      Reads (step a) words (I (done ++ [b]))) (ha : I [] a) :
    Reads (countedSteps step a) words (I items) := by
  obtain ⟨hle, chunks, hitems, rfl⟩ := putList_eq_ok.1 h
  refine .bind_word ?_
  rw [toNat_word hle]
  exact .iterate (hitems.imp hstep) [] ha

end written

end GrammarWalk.Wire
