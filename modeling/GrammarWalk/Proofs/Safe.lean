import GrammarWalk.Proofs.Outcome

/-! Computations without faults: what is safe in parts is safe as a whole. A part may rely on what
the parts before it have checked. -/

namespace GrammarWalk

/-- The computation looks up nothing that does not exist, no search in it goes on without end, and
its result, if it gives one, has a property. -/
structure Safe {α : Type} (x : Except LoadError α) (P : α → Prop) : Prop where
  noFault : ∀ f, x ≠ .error (.fault f)
  keeps : ∀ a, x = .ok a → P a

section safe

variable {α β : Type} {x : Except LoadError α} {P R : α → Prop} {Q : β → Prop}

theorem safe_pure {a : α} (h : P a) : Safe (pure a) P :=
  ⟨fun _ => nofun, fun _ ha => pure_eq_ok.1 ha ▸ h⟩

theorem safe_defect {d : Defect} : Safe (throw (.defect d)) P := ⟨fun _ => nofun, nofun⟩

theorem Safe.bind {f : α → Except LoadError β} (hx : Safe x P) (hf : ∀ a, P a → Safe (f a) Q) :
    Safe (x >>= f) Q := by
  cases x with
  | ok a => exact hf a (hx.keeps a rfl)
  | error e => exact ⟨fun fault h => hx.noFault fault (by cases h; rfl), nofun⟩

theorem Safe.imp (hx : Safe x P) (h : ∀ a, P a → R a) : Safe x R :=
  ⟨hx.noFault, fun a ha => h a (hx.keeps a ha)⟩

theorem Safe.and (hx : Safe x P) (h : ∀ a, x = .ok a → R a) : Safe x fun a => P a ∧ R a :=
  ⟨hx.noFault, fun a ha => ⟨hx.keeps a ha, h a ha⟩⟩

theorem safe_ite {p : Prop} [Decidable p] {y : Except LoadError α} (hx : p → Safe x P)
    (hy : ¬p → Safe y P) : Safe (if p then x else y) P := by
  split
  · exact hx ‹_›
  · exact hy ‹_›

theorem Returns.safe {x : Except Fault α} (h : Returns x P) :
    Safe (liftM x : Except LoadError α) P := by
  obtain ⟨a, rfl, ha⟩ := h
  exact safe_pure ha

theorem safe_check (x : Except Defect α) :
    Safe (liftM x : Except LoadError α) fun a => x = .ok a := by
  cases x <;> exact ⟨fun _ => nofun, fun _ h => liftM_defect_eq_ok.1 h⟩

theorem safe_forM {f : α → Except LoadError Unit} {l : List α}
    (h : ∀ a ∈ l, Safe (f a) fun _ => True) : Safe (l.forM f) fun _ => True := by
  induction l with
  | nil => exact safe_pure trivial
  | cons a l ih =>
    exact (h a (by simp)).bind fun _ _ => ih fun a ha => h a (List.mem_cons_of_mem _ ha)

theorem safe_foldlM {f : β → α → Except LoadError β} {l : List α}
    (hf : ∀ a ∈ l, ∀ b, Q b → Safe (f b a) Q) : ∀ {b}, Q b → Safe (l.foldlM f b) Q := by
  induction l with
  | nil => exact fun hb => safe_pure hb
  | cons a l ih =>
    intro b hb
    rw [List.foldlM_cons]
    exact (hf a (by simp) b hb).bind fun c hc =>
      ih (fun a ha => hf a (List.mem_cons_of_mem _ ha)) hc

end safe

namespace Wire.Reader

variable {α β : Type} {read : Reader α} {P R : α → Prop} {Q : β → Prop}

def SafeRead (read : Reader α) (P : α → Prop) : Prop := ∀ c, Safe (read c) fun p => P p.1

theorem safeRead_pure {a : α} (h : P a) : SafeRead (pure a) P := fun _ => safe_pure h

theorem safeRead_fail {e : FormatError} : SafeRead (fail e) P := fun _ => ⟨fun _ => nofun, nofun⟩

theorem safeRead_reject {d : Defect} : SafeRead (reject d) P := fun _ => ⟨fun _ => nofun, nofun⟩

theorem SafeRead.bind {f : α → Reader β} (h : SafeRead read P) (hf : ∀ a, P a → SafeRead (f a) Q) :
    SafeRead (read >>= f) Q := fun c => (h c).bind fun p hp => hf p.1 hp p.2

theorem SafeRead.imp (h : SafeRead read P) (hR : ∀ a, P a → R a) : SafeRead read R := fun c =>
  (h c).imp fun p => hR p.1

theorem SafeRead.and (h : SafeRead read P) (hR : ∀ c a c', read c = .ok (a, c') → R a) :
    SafeRead read fun a => P a ∧ R a := fun c =>
  (h c).and (R := fun p => R p.1) fun p hp => hR c p.1 p.2 hp

theorem safeRead_ite {p : Prop} [Decidable p] {read' : Reader α} (h : SafeRead read P)
    (h' : SafeRead read' P) :
    SafeRead (if p then read else read') P := by
  split
  · exact h
  · exact h'

theorem safeRead_guard {b : Bool} {d : Defect} (h : SafeRead read P) :
    SafeRead (if (!b) = true then reject d >>= fun (_ : PUnit) => read else read) P :=
  safeRead_ite (safeRead_reject.bind (P := fun _ => True) fun _ _ => h) h

theorem safeRead_offset : SafeRead offset fun _ => True :=
  fun _ => ⟨fun _ => nofun, fun _ _ => trivial⟩

theorem safeRead_word : SafeRead word fun _ => True := by
  rintro ⟨offset, _ | ⟨w, rest⟩⟩ <;> exact ⟨fun _ => nofun, fun _ _ => trivial⟩

theorem safeRead_liftM {x : Except LoadError α} (h : Safe x P) : SafeRead (liftM x : Reader α) P :=
  fun _ => h.bind fun _ ha => safe_pure ha

theorem safeRead_liftM_fault {x : Except Fault α} (h : Returns x P) :
    SafeRead (liftM x : Reader α) P :=
  fun _ => h.safe.bind fun _ ha => safe_pure ha

theorem safeRead_times (h : SafeRead read P) : ∀ n, SafeRead (times read n) fun l => ∀ a ∈ l, P a
  | 0 => safeRead_pure nofun
  | n + 1 => h.bind fun _ ha => (safeRead_times h n).bind fun _ hl =>
    safeRead_pure (List.forall_mem_cons.2 ⟨ha, hl⟩)

theorem safeRead_counted (h : SafeRead read P) : SafeRead (counted read) fun l => ∀ a ∈ l, P a :=
  safeRead_word.bind fun n _ => safeRead_times h n

theorem safeRead_iterate {step : α → Reader α} (h : ∀ a, P a → SafeRead (step a) P) :
    ∀ n {a}, P a → SafeRead (iterate step n a) P
  | 0, _, ha => safeRead_pure ha
  | n + 1, a, ha => (h a ha).bind fun _ hb => safeRead_iterate h n hb

theorem safeRead_countedSteps {step : α → Reader α} {a : α} (h : ∀ a, P a → SafeRead (step a) P)
    (ha : P a) : SafeRead (countedSteps step a) P :=
  safeRead_word.bind fun n _ => safeRead_iterate h n ha

theorem safeRead_tagged {part : Part} {ofTag? : Nat → Option α} :
    SafeRead (tagged part ofTag?) fun _ => True :=
  safeRead_offset.bind fun _ _ => safeRead_word.bind fun tag _ => by
    cases ofTag? tag
    · exact safeRead_fail
    · exact safeRead_pure trivial

theorem safeRead_forM {f : β → Reader PUnit} {R : β → Prop} (h : ∀ b, SafeRead (f b) fun _ => R b) :
    ∀ l : List β, SafeRead (l.forM f) fun _ => ∀ b ∈ l, R b
  | [] => safeRead_pure nofun
  | b :: l => (h b).bind fun _ hb => (safeRead_forM h l).imp fun _ hl =>
    List.forall_mem_cons.2 ⟨hb, hl⟩

end Wire.Reader

end GrammarWalk
