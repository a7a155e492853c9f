import GrammarWalk.Misuse
import GrammarWalk.Wire.Reader
import Mathlib.Data.List.Forall2

/-! How a computation that can fail came to its result: what its parts gave, and what a loop keeps.
The later proofs take loads, walks and searches apart with these, without opening the monads. -/

namespace GrammarWalk

theorem bind_eq_ok {ε α β : Type} {x : Except ε α} {f : α → Except ε β} {b : β} :
    x >>= f = .ok b ↔ ∃ a, x = .ok a ∧ f a = .ok b := by
  cases x with
  | error e => exact ⟨nofun, fun ⟨_, h, _⟩ => nomatch h⟩
  | ok a => exact ⟨fun h => ⟨a, rfl, h⟩, fun ⟨_, rfl, h⟩ => h⟩

theorem bind_eq_error {ε α β : Type} {x : Except ε α} {f : α → Except ε β} {e : ε} :
    x >>= f = .error e ↔ x = .error e ∨ ∃ a, x = .ok a ∧ f a = .error e := by
  cases x with
  | error e' =>
    show Except.error e' = .error e ↔ _
    simp
  | ok a =>
    show f a = .error e ↔ _
    simp

theorem pure_eq_ok {ε α : Type} {a b : α} : (pure a : Except ε α) = .ok b ↔ a = b := by
  show Except.ok a = .ok b ↔ _
  simp

theorem throw_ne_ok {ε α : Type} {e : ε} {a : α} : (throw e : Except ε α) = .ok a ↔ False :=
  ⟨nofun, False.elim⟩

theorem ok_of_any {ε α : Type} {x : Except ε α} {p : α → Bool} (h : x.toOption.any p = true) :
    ∃ a, x = .ok a ∧ p a = true := by
  cases x with
  | error e => cases h
  | ok a => exact ⟨a, rfl, h⟩

theorem map_eq_ok {ε α β : Type} {x : Except ε α} {f : α → β} {b : β} :
    x.map f = .ok b ↔ ∃ a, x = .ok a ∧ f a = b := by
  cases x <;> simp [Except.map]

theorem map_eq_error {ε α β : Type} {x : Except ε α} {f : α → β} {e : ε} :
    x.map f = .error e ↔ x = .error e := by
  cases x <;> simp [Except.map]

theorem mapError_eq_ok {ε ε' α : Type} {f : ε → ε'} {x : Except ε α} {a : α} :
    x.mapError f = .ok a ↔ x = .ok a := by
  cases x <;> simp [Except.mapError]

theorem mapError_eq_error {ε ε' α : Type} {f : ε → ε'} {x : Except ε α} {e' : ε'} :
    x.mapError f = .error e' ↔ ∃ e, x = .error e ∧ f e = e' := by
  cases x <;> simp [Except.mapError]

theorem liftM_fault_eq_ok {α : Type} {x : Except Fault α} {a : α} :
    (liftM x : Except LoadError α) = .ok a ↔ x = .ok a := mapError_eq_ok

theorem liftM_defect_eq_ok {α : Type} {x : Except Defect α} {a : α} :
    (liftM x : Except LoadError α) = .ok a ↔ x = .ok a := mapError_eq_ok

theorem liftM_run_eq_ok {α : Type} {x : Except Fault α} {a : α} :
    (liftM x : Except RunError α) = .ok a ↔ x = .ok a := mapError_eq_ok

section loops

variable {ε α β : Type}

/-- What every step of a loop keeps, the loop keeps. -/
theorem foldlM_keeps {f : β → α → Except ε β} {P : β → Prop} {l : List α}
    (hf : ∀ a ∈ l, ∀ b b', P b → f b a = .ok b' → P b') :
    ∀ {b b'}, P b → l.foldlM f b = .ok b' → P b' := by
  induction l with
  | nil =>
    intro b b' hb h
    rw [List.foldlM_nil, pure_eq_ok] at h
    exact h ▸ hb
  | cons a l ih =>
    intro b b' hb h
    rw [List.foldlM_cons, bind_eq_ok] at h
    obtain ⟨c, hc, h⟩ := h
    exact ih (fun a ha => hf a (List.mem_cons_of_mem _ ha)) (hf a (by simp) b c hb hc) h

theorem foldlM_range_keeps {f : β → Nat → Except ε β} {P : Nat → β → Prop} {n : Nat}
    (hf : ∀ k < n, ∀ b b', P k b → f b k = .ok b' → P (k + 1) b') :
    ∀ {b b'}, P 0 b → (List.range n).foldlM f b = .ok b' → P n b' := by
  induction n with
  | zero =>
    intro b b' hb h
    rw [List.range_zero, List.foldlM_nil, pure_eq_ok] at h
    exact h ▸ hb
  | succ n ih =>
    intro b b' hb h
    rw [List.range_succ, List.foldlM_append, bind_eq_ok] at h
    obtain ⟨c, hc, h⟩ := h
    rw [List.foldlM_cons, bind_eq_ok] at h
    obtain ⟨d, hd, h⟩ := h
    rw [List.foldlM_nil, pure_eq_ok] at h
    subst h
    exact hf n (by omega) c d (ih (fun k hk => hf k (by omega)) hb hc) hd

theorem foldl_keeps {f : β → α → β} {P : β → Prop} {l : List α}
    (hf : ∀ a ∈ l, ∀ b, P b → P (f b a)) : ∀ {b}, P b → P (l.foldl f b) := by
  induction l with
  | nil => exact fun hb => hb
  | cons a l ih =>
    intro b hb
    exact ih (fun a ha => hf a (List.mem_cons_of_mem _ ha)) (hf a (by simp) b hb)

theorem append_singleton_eq_append_cons {l before rest : List α} {a b : α} :
    l ++ [a] = before ++ b :: rest ↔
      (l = before ∧ a = b ∧ rest = []) ∨ ∃ rest', l = before ++ b :: rest' ∧
      rest = rest' ++ [a] := by
  constructor
  · intro heq
    obtain rfl | ⟨rest, last, rfl⟩ := rest.eq_nil_or_concat'
    · obtain ⟨rfl, ha⟩ := List.append_inj' heq rfl
      exact .inl ⟨rfl, List.singleton_inj.1 ha, rfl⟩
    · rw [← List.cons_append, ← List.append_assoc] at heq
      obtain ⟨rfl, ha⟩ := List.append_inj' heq rfl
      exact .inr ⟨rest, rfl, by rw [ha]⟩
  · rintro (⟨rfl, rfl, rfl⟩ | ⟨rest, rfl, rfl⟩)
    · rfl
    · simp

theorem mapM_eq_ok {f : α → Except ε β} {l : List α} :
    ∀ {l' : List β}, l.mapM f = .ok l' ↔ List.Forall₂ (fun a b => f a = .ok b) l l' := by
  induction l with
  | nil =>
    intro l'
    rw [List.mapM_nil, pure_eq_ok, List.forall₂_nil_left_iff]
    exact eq_comm
  | cons a l ih =>
    intro l'
    simp only [List.mapM_cons, bind_eq_ok, pure_eq_ok]
    constructor
    · rintro ⟨b, hb, bs, hbs, rfl⟩
      exact .cons hb (ih.1 hbs)
    · rintro (_ | ⟨hb, hbs⟩)
      exact ⟨_, hb, _, ih.2 hbs, rfl⟩

theorem getElem?_of_forall₂ {R : α → β → Prop} {l : List α} {l' : List β} (h : List.Forall₂ R l l')
    {i : Nat} {b : β} (hb : l'[i]? = some b) : ∃ a, l[i]? = some a ∧ R a b := by
  obtain ⟨hlt, rfl⟩ := List.getElem?_eq_some_iff.1 hb
  have hlt' : i < l.length := h.length_eq ▸ hlt
  exact ⟨l[i], List.getElem?_eq_getElem hlt', h.get hlt' hlt⟩

theorem exists_of_forall₂_right {R : α → β → Prop} {l : List α} {l' : List β}
    (h : List.Forall₂ R l l') {b : β} (hb : b ∈ l') : ∃ a ∈ l, R a b := by
  obtain ⟨i, hi⟩ := List.mem_iff_getElem?.1 hb
  obtain ⟨a, ha, hR⟩ := getElem?_of_forall₂ h hi
  exact ⟨a, List.mem_of_getElem? ha, hR⟩

theorem exists_of_forall₂_left {R : α → β → Prop} {l : List α} {l' : List β}
    (h : List.Forall₂ R l l') {a : α} (ha : a ∈ l) : ∃ b ∈ l', R a b :=
  exists_of_forall₂_right h.flip ha

theorem forM_eq_ok {f : α → Except ε Unit} {l : List α} {u : Unit} :
    l.forM f = .ok u ↔ ∀ a ∈ l, f a = .ok () := by
  induction l with
  | nil => exact ⟨fun _ => nofun, fun _ => rfl⟩
  | cons a l ih =>
    show (f a >>= fun _ => l.forM f) = _ ↔ _
    simp only [bind_eq_ok, ih, List.mem_cons, forall_eq_or_imp]
    exact ⟨fun ⟨⟨⟩, h⟩ => h, fun h => ⟨_, h⟩⟩

theorem mem_of_findM?_eq_ok {f : α → Except ε Bool} {l : List α} {a : α}
    (h : l.findM? f = .ok (some a)) : a ∈ l ∧ f a = .ok true := by
  induction l with
  | nil => exact absurd (pure_eq_ok.1 h) nofun
  | cons b l ih =>
    rw [List.findM?, bind_eq_ok] at h
    obtain ⟨found, hb, h⟩ := h
    cases found with
    | true =>
      obtain rfl := Option.some.inj (pure_eq_ok.1 h)
      exact ⟨by simp, hb⟩
    | false => exact (ih h).imp_left (List.mem_cons_of_mem b)

end loops

/-- The computation gives a result, and `P` holds of it. -/
def Returns {ε α : Type} (x : Except ε α) (P : α → Prop) : Prop := ∃ a, x = .ok a ∧ P a

section returns

variable {ε α β : Type} {x : Except ε α} {P : α → Prop} {Q : β → Prop}

theorem returns_pure {a : α} (h : P a) : Returns (pure a : Except ε α) P := ⟨a, rfl, h⟩

theorem Returns.bind {f : α → Except ε β} (hx : Returns x P) (hf : ∀ a, P a → Returns (f a) Q) :
    Returns (x >>= f) Q := by
  obtain ⟨a, rfl, ha⟩ := hx
  exact hf a ha

theorem Returns.imp {P' : α → Prop} (hx : Returns x P) (h : ∀ a, P a → P' a) : Returns x P' := by
  obtain ⟨a, hx, ha⟩ := hx
  exact ⟨a, hx, h a ha⟩

theorem Returns.of_eq_ok {a : α} (hx : Returns x P) (h : x = .ok a) : P a := by
  obtain ⟨b, hb, hP⟩ := hx
  exact Except.ok.inj (hb.symm.trans h) ▸ hP

theorem Returns.and {R : α → Prop} (hx : Returns x P) (h : ∀ a, x = .ok a → R a) :
    Returns x fun a => P a ∧ R a := by
  obtain ⟨a, hx, ha⟩ := hx
  exact ⟨a, hx, ha, h a hx⟩

theorem returns_ofLookup {o : Option α} {a : α} (h : o = some a) (ha : P a) :
    Returns (Fault.ofLookup o) P := ⟨a, Fault.ofLookup_eq_ok.2 h, ha⟩

theorem returns_mapM {f : α → Except ε β} {l : List α} {R : α → β → Prop}
    (h : ∀ a ∈ l, Returns (f a) (R a)) : Returns (l.mapM f) (List.Forall₂ R l) := by
  induction l with
  | nil => exact ⟨[], by rw [List.mapM_nil]; rfl, .nil⟩
  | cons a l ih =>
    rw [List.mapM_cons]
    refine (h a (by simp)).bind fun b hb => ?_
    exact (ih fun a ha => h a (List.mem_cons_of_mem _ ha)).bind fun bs hbs =>
      returns_pure (.cons hb hbs)

theorem returns_mapM_all {f : α → Except ε β} {l : List α} (h : ∀ a ∈ l, Returns (f a) Q) :
    Returns (l.mapM f) fun l' => ∀ b ∈ l', Q b := by
  refine (returns_mapM (R := fun _ => Q) h).imp fun l' hl' => ?_
  clear h
  induction hl' with
  | nil => exact nofun
  | cons hb _ ih => exact List.forall_mem_cons.2 ⟨hb, ih⟩

theorem returns_findM? {f : α → Except ε Bool} {l : List α}
    (h : ∀ a ∈ l, Returns (f a) fun _ => True) : Returns (l.findM? f) fun _ => True := by
  induction l with
  | nil => exact returns_pure trivial
  | cons a l ih =>
    refine (h a (by simp)).bind fun found _ => ?_
    cases found with
    | true => exact returns_pure trivial
    | false => exact ih fun a ha => h a (List.mem_cons_of_mem _ ha)

/-- A search through an ordered list answers with the first entry that passes, if one does. -/
theorem returns_findM?_ordered {R : α → α → Prop} {f : α → Except ε Bool} {l : List α}
    (hl : l.Pairwise R) (h : ∀ a ∈ l, Returns (f a) fun b => b = true ↔ P a) :
    Returns (l.findM? f) fun o => (o = none → ∀ a ∈ l, ¬ P a) ∧
      ∀ a, o = some a → a ∈ l ∧ P a ∧ ∀ b ∈ l, P b → b = a ∨ R a b := by
  induction l with
  | nil => exact returns_pure (by simp)
  | cons a l ih =>
    obtain ⟨hhead, htail⟩ := List.pairwise_cons.1 hl
    rw [List.findM?]
    refine (h a (by simp)).bind fun passes hpasses => ?_
    cases passes with
    | true =>
      have hfirst (b : α) (hb : b ∈ a :: l) (_ : P b) : b = a ∨ R a b :=
        (List.mem_cons.1 hb).imp_right (hhead b)
      exact returns_pure (by simpa [hpasses.1 rfl] using hfirst)
    | false =>
      have hnot : ¬ P a := by simpa using hpasses
      refine (ih htail fun b hb => h b (by simp [hb])).imp fun o ho => ?_
      obtain ⟨hnone, hsome⟩ := ho
      refine ⟨fun ho => List.forall_mem_cons.2 ⟨hnot, hnone ho⟩, fun b ho => ?_⟩
      obtain ⟨hb, hP, hfirst⟩ := hsome b ho
      exact ⟨by simp [hb], hP, List.forall_mem_cons.2 ⟨fun ha => absurd ha hnot, hfirst⟩⟩

theorem returns_foldlM {f : β → α → Except ε β} {l : List α}
    (hf : ∀ a ∈ l, ∀ b, Q b → Returns (f b a) Q) : ∀ {b}, Q b → Returns (l.foldlM f b) Q := by
  induction l with
  | nil => exact fun hb => returns_pure hb
  | cons a l ih =>
    intro b hb
    rw [List.foldlM_cons]
    exact (hf a (by simp) b hb).bind fun c hc =>
      ih (fun a ha => hf a (List.mem_cons_of_mem _ ha)) hc

end returns

/-- The computation gives a result with a property, or else an error that is allowed. -/
def Yields {ε α : Type} (allowed : ε → Prop) (x : Except ε α) (P : α → Prop) : Prop :=
  (∃ a, x = .ok a ∧ P a) ∨ ∃ e, x = .error e ∧ allowed e

section yields

variable {ε α β : Type} {allowed : ε → Prop} {x : Except ε α} {P : α → Prop} {Q : β → Prop}

theorem Returns.yields (h : Returns x P) : Yields allowed x P := .inl h

theorem returns_iff_yields : Returns x P ↔ Yields (fun _ => False) x P :=
  ⟨Returns.yields, fun h => h.resolve_right fun ⟨_, _, h⟩ => h⟩

theorem yields_pure {a : α} (h : P a) : Yields allowed (pure a : Except ε α) P :=
  (returns_pure h).yields

theorem yields_error {e : ε} (h : allowed e) : Yields allowed (.error e : Except ε α) P :=
  .inr ⟨e, rfl, h⟩

theorem Yields.bind {f : α → Except ε β} (hx : Yields allowed x P)
    (hf : ∀ a, P a → Yields allowed (f a) Q) : Yields allowed (x >>= f) Q := by
  rcases hx with ⟨a, rfl, ha⟩ | ⟨e, rfl, he⟩
  · exact hf a ha
  · exact yields_error he

theorem Yields.imp {R : α → Prop} (hx : Yields allowed x P) (h : ∀ a, P a → R a) :
    Yields allowed x R :=
  hx.imp_left fun ⟨a, hx, ha⟩ => ⟨a, hx, h a ha⟩

theorem Yields.of_eq_ok {a : α} (hx : Yields allowed x P) (h : x = .ok a) : P a := by
  rcases hx with hx | ⟨e, hx, -⟩
  · exact Returns.of_eq_ok hx h
  · exact nomatch hx.symm.trans h

theorem Yields.of_eq_error {e : ε} (hx : Yields allowed x P) (h : x = .error e) : allowed e := by
  rcases hx with ⟨a, hx, -⟩ | ⟨e', hx, he⟩
  · exact nomatch hx.symm.trans h
  · exact Except.error.inj (hx.symm.trans h) ▸ he

theorem yields_foldlM {f : β → α → Except ε β} {l : List α}
    (hf : ∀ a ∈ l, ∀ b, Q b → Yields allowed (f b a) Q) :
    ∀ {b}, Q b → Yields allowed (l.foldlM f b) Q := by
  induction l with
  | nil => exact fun hb => yields_pure hb
  | cons a l ih =>
    intro b hb
    rw [List.foldlM_cons]
    exact (hf a (by simp) b hb).bind fun c hc =>
      ih (fun a ha => hf a (List.mem_cons_of_mem _ ha)) hc

end yields

namespace Wire.Reader

theorem bind_reads {α β : Type} {x : Reader α} {f : α → Reader β} {c c' : Cursor} {b : β} :
    (x >>= f) c = .ok (b, c') ↔ ∃ a d, x c = .ok (a, d) ∧ f a d = .ok (b, c') := by
  show (x c >>= fun p => f p.1 p.2) = _ ↔ _
  rw [bind_eq_ok]
  exact ⟨fun ⟨⟨a, d⟩, h⟩ => ⟨a, d, h⟩, fun ⟨a, d, h⟩ => ⟨(a, d), h⟩⟩

theorem pure_reads {α : Type} {a b : α} {c c' : Cursor} :
    (pure a : Reader α) c = .ok (b, c') ↔ a = b ∧ c = c' := by
  show Except.ok (a, c) = .ok (b, c') ↔ _
  simp

theorem fail_reads {α : Type} {e : FormatError} {a : α} {c c' : Cursor} :
    (fail e : Reader α) c = .ok (a, c') ↔ False := ⟨nofun, False.elim⟩

theorem reject_reads {α : Type} {d : Defect} {a : α} {c c' : Cursor} :
    (reject d : Reader α) c = .ok (a, c') ↔ False := ⟨nofun, False.elim⟩

theorem liftM_load_reads {α : Type} {x : Except LoadError α} {a : α} {c c' : Cursor} :
    (liftM x : Reader α) c = .ok (a, c') ↔ x = .ok a ∧ c = c' := by
  show (x >>= fun a => pure (a, c)) = _ ↔ _
  simp only [bind_eq_ok, pure_eq_ok, Prod.mk.injEq]
  exact ⟨fun ⟨_, h, rfl, hc⟩ => ⟨h, hc⟩, fun ⟨h, hc⟩ => ⟨a, h, rfl, hc⟩⟩

theorem liftM_fault_reads {α : Type} {x : Except Fault α} {a : α} {c c' : Cursor} :
    (liftM x : Reader α) c = .ok (a, c') ↔ x = .ok a ∧ c = c' := by
  show ((liftM x : Except LoadError α) >>= fun a => pure (a, c)) = _ ↔ _
  simp only [bind_eq_ok, liftM_fault_eq_ok, pure_eq_ok,
    Prod.mk.injEq]
  exact ⟨fun ⟨_, h, rfl, hc⟩ => ⟨h, hc⟩, fun ⟨h, hc⟩ => ⟨a, h, rfl, hc⟩⟩

theorem iterate_keeps {α : Type} {step : α → Reader α} {P : α → Prop}
    (hs : ∀ a c a' c', P a → step a c = .ok (a', c') → P a') :
    ∀ {n a c a' c'}, P a → iterate step n a c = .ok (a', c') → P a' := by
  intro n
  induction n with
  | zero =>
    intro a c a' c' ha h
    rw [iterate, pure_reads] at h
    exact h.1 ▸ ha
  | succ n ih =>
    intro a c a' c' ha h
    rw [iterate, bind_reads] at h
    obtain ⟨b, d, hb, h⟩ := h
    exact ih (hs a c b d ha hb) h

theorem countedSteps_keeps {α : Type} {step : α → Reader α} {P : α → Prop}
    (hs : ∀ a c a' c', P a → step a c = .ok (a', c') → P a')
    {a a' : α} {c c' : Cursor} (ha : P a) (h : countedSteps step a c = .ok (a', c')) : P a' := by
  rw [countedSteps, bind_reads] at h
  obtain ⟨n, d, -, h⟩ := h
  exact iterate_keeps hs ha h

end Wire.Reader

end GrammarWalk
