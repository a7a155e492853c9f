import GrammarWalk.Proofs.Outcome
import GrammarWalk.Visited
import Mathlib.Data.Set.Card
import Mathlib.Logic.Relation

/-! What a depth-first search has done when it comes back: it has seen, besides what it had seen
before, all that can be reached from where it was started, and listed those among them that are
looked for. A search ends because there are only so many lists of a bounded length. -/

namespace GrammarWalk

/--
A search that had seen `old` was started at `roots`, went on along `moves`, and came back having
seen `new`, of which it newly listed those that are `wanted`.
-/
structure Searched {α : Type} (moves : α → α → Prop) (wanted : α → Prop) (roots old new : α → Prop)
    (listed : List α) : Prop where
  grows : ∀ x, old x → new x
  begun : ∀ x, roots x → new x
  reaches : ∀ x, new x → old x ∨ ∃ r, roots r ∧ Relation.ReflTransGen moves r x
  closed : ∀ x y, new x → ¬ old x → moves x y → new y
  listed : ∀ x, x ∈ listed ↔ new x ∧ ¬ old x ∧ wanted x

namespace Searched

variable {α : Type} {moves : α → α → Prop} {wanted roots roots' old mid new : α → Prop}
  {l l' : List α}

theorem none (h : ∀ x, ¬ roots x) : Searched moves wanted roots old old [] where
  grows _ := id
  begun x hx := (h x hx).elim
  reaches _ := .inl
  closed _ _ hx hold := (hold hx).elim
  listed _ := by simp +contextual

theorem seen {a : α} (h : old a) : Searched moves wanted (· = a) old old [] where
  grows _ := id
  begun _ hx := hx ▸ h
  reaches _ := .inl
  closed _ _ hx hold := (hold hx).elim
  listed _ := by simp +contextual

theorem append (h : Searched moves wanted roots old mid l)
    (h' : Searched moves wanted roots' mid new l') :
    Searched moves wanted (fun x => roots x ∨ roots' x) old new (l ++ l') where
  grows x hx := h'.grows x (h.grows x hx)
  begun x hx := hx.elim (fun hx => h'.grows x (h.begun x hx)) (h'.begun x)
  reaches x hx := by
    rcases h'.reaches x hx with hx | ⟨r, hr, hrx⟩
    · exact (h.reaches x hx).imp_right fun ⟨r, hr, hrx⟩ => ⟨r, .inl hr, hrx⟩
    · exact .inr ⟨r, .inr hr, hrx⟩
  closed x y hx hold hxy := by
    by_cases hmid : mid x
    · exact h'.grows y (h.closed x y hmid hold hxy)
    · exact h'.closed x y hx hmid hxy
  listed x := by
    rw [List.mem_append, h.listed, h'.listed]
    constructor
    · rintro (⟨hm, ho, hw⟩ | ⟨hn, hm, hw⟩)
      · exact ⟨h'.grows x hm, ho, hw⟩
      · exact ⟨hn, fun ho => hm (h.grows x ho), hw⟩
    · rintro ⟨hn, ho, hw⟩
      by_cases hm : mid x
      · exact .inl ⟨hm, ho, hw⟩
      · exact .inr ⟨hn, hm, hw⟩

theorem congr (h : Searched moves wanted roots old new l) (hr : ∀ x, roots x ↔ roots' x) :
    Searched moves wanted roots' old new l := by
  obtain rfl : roots = roots' := funext fun x => propext (hr x)
  exact h

/-- A visit: what was not seen is marked, listed if it is wanted, and left along all moves. -/
theorem visit {a : α} [Decidable (wanted a)] (ha : ¬ old a)
    (h : Searched moves wanted (moves a) (fun x => x = a ∨ old x) new l) :
    Searched moves wanted (· = a) old new ((if wanted a then [a] else []) ++ l) where
  grows x hx := h.grows x (.inr hx)
  begun x hx := h.grows x (.inl hx)
  reaches x hx := by
    rcases h.reaches x hx with (rfl | hx) | ⟨r, hr, hrx⟩
    · exact .inr ⟨x, rfl, .refl⟩
    · exact .inl hx
    · exact .inr ⟨a, rfl, .head hr hrx⟩
  closed x y hx hold hxy := by
    by_cases hxa : x = a
    · exact h.begun y (hxa ▸ hxy)
    · exact h.closed x y hx (fun hor => hor.elim hxa hold) hxy
  listed x := by
    rw [List.mem_append, h.listed]
    by_cases hxa : x = a
    · subst hxa
      have hnew := h.grows x (.inl rfl)
      by_cases hw : wanted x <;> simp [hw, hnew, ha]
    · have : x ∉ (if wanted a then [a] else []) := by split <;> simp [hxa]
      simp [this, hxa]

/-- A search that began with nothing seen has seen all that can be reached, and listed the wanted
part. -/
theorem mem_listed (h : Searched moves wanted roots (fun _ => False) new l) {x : α} :
    x ∈ l ↔ (∃ r, roots r ∧ Relation.ReflTransGen moves r x) ∧ wanted x := by
  have hnew : new x ↔ ∃ r, roots r ∧ Relation.ReflTransGen moves r x := by
    constructor
    · exact fun hx => (h.reaches x hx).resolve_left id
    · rintro ⟨r, hr, hrx⟩
      induction hrx with
      | refl => exact h.begun r hr
      | tail _ hxy ih => exact h.closed _ _ ih id hxy
  rw [h.listed, hnew]
  simp

end Searched

section counting

theorem ncard_le_of_code {α β : Type} {P : α → Prop} {codes : Finset β} (code : α → β)
    (hmaps : ∀ x, P x → code x ∈ codes) (hinj : ∀ x y, P x → P y → code x = code y → x = y) :
    {x | P x}.Finite ∧ {x | P x}.ncard ≤ codes.card := by
  have hmaps : Set.MapsTo code {x | P x} ↑codes := hmaps
  have hinj : Set.InjOn code {x | P x} := fun x hx y hy => hinj x y hx hy
  refine ⟨Set.Finite.of_injOn hmaps hinj codes.finite_toSet, ?_⟩
  have hle := Set.ncard_le_ncard_of_injOn _ hmaps hinj codes.finite_toSet
  rwa [Set.ncard_coe_finset] at hle

theorem ncard_unseen_lt {α : Type} {P old new : α → Prop} {a : α} (hfin : {x | P x}.Finite)
    (hgrows : ∀ x, x = a ∨ old x → new x) (ha : P a) (hold : ¬ old a) :
    {x | P x ∧ ¬ new x}.ncard < {x | P x ∧ ¬ old x}.ncard := by
  refine Set.ncard_lt_ncard ⟨fun x hx => ?_, fun hsub => ?_⟩ (hfin.subset fun x hx => hx.1)
  · exact ⟨hx.1, fun h => hx.2 (hgrows x (.inr h))⟩
  · exact (hsub ⟨ha, hold⟩).2 (hgrows a (.inl rfl))

end counting

/-- The fronts of a search, which list what was found and remember what was seen. -/
structure Fronts (F α : Type) where
  listed : F → List α
  seen : F → α → Prop

namespace Fronts

variable {ε F F' α β : Type} {k : Fronts F α} {moves : α → α → Prop}
  {wanted roots roots' : α → Prop}
  {f f' f'' : F} {t : α}

def within (k : Fronts F α) (front : F' → F) : Fronts F' α where
  listed f := k.listed (front f)
  seen f := k.seen (front f)

/-- The front `f` was closed over the moves from `roots`, which made it `f'`. -/
def Closed (k : Fronts F α) (moves : α → α → Prop) (wanted roots : α → Prop) (f f' : F) : Prop :=
  ∃ l, k.listed f' = k.listed f ++ l ∧ Searched moves wanted roots (k.seen f) (k.seen f') l

namespace Closed

theorem grows (h : k.Closed moves wanted roots f f') {x : α} (hx : k.seen f x) : k.seen f' x := by
  obtain ⟨_, -, h⟩ := h
  exact h.grows x hx

theorem none (h : ∀ x, ¬ roots x) : k.Closed moves wanted roots f f := ⟨[], by simp, .none h⟩

theorem seen (h : k.seen f t) : k.Closed moves wanted (· = t) f f := ⟨[], by simp, .seen h⟩

theorem congr (h : k.Closed moves wanted roots f f') (hr : ∀ x, roots x ↔ roots' x) :
    k.Closed moves wanted roots' f f' := by
  obtain ⟨l, hl, h⟩ := h
  exact ⟨l, hl, h.congr hr⟩

theorem append (h : k.Closed moves wanted roots f f') (h' : k.Closed moves wanted roots' f' f'') :
    k.Closed moves wanted (fun x => roots x ∨ roots' x) f f'' := by
  obtain ⟨l, hl, h⟩ := h
  obtain ⟨l', hl', h'⟩ := h'
  exact ⟨l ++ l', by rw [hl', hl, List.append_assoc], h.append h'⟩

theorem visit {f₁ : F} {l : List α} (ht : ¬ k.seen f t)
    (hseen : ∀ x, k.seen f₁ x ↔ x = t ∨ k.seen f x) (hlisted : k.listed f₁ = k.listed f ++ l)
    (h : k.Closed moves wanted (moves t) f₁ f') (hl : wanted t ∧ l = [t] ∨ ¬ wanted t ∧ l = []) :
    k.Closed moves wanted (· = t) f f' := by
  classical
  obtain ⟨l', hl', h⟩ := h
  obtain hseen : k.seen f₁ = fun x => x = t ∨ k.seen f x := funext fun x => propext (hseen x)
  rw [hseen] at h
  refine ⟨_, ?_, h.visit ht⟩
  rw [hl', hlisted, List.append_assoc]
  rcases hl with ⟨hw, rfl⟩ | ⟨hw, rfl⟩ <;> simp [hw]

theorem mem_listed (h : k.Closed moves wanted roots f f') (hlisted : k.listed f = [])
    (hseen : ∀ x, ¬ k.seen f x) {x : α} :
    x ∈ k.listed f' ↔ (∃ r, roots r ∧ Relation.ReflTransGen moves r x) ∧ wanted x := by
  obtain ⟨l, hl, h⟩ := h
  obtain hnone : k.seen f = fun _ => False := funext fun x => eq_false (hseen x)
  rw [hnone] at h
  rw [hl, hlisted, List.nil_append, h.mem_listed]

theorem exists_listed (h : k.Closed moves wanted roots f f') : ∃ l, k.listed f' = k.listed f ++ l ∧
    ∀ x ∈ l, (∃ r, roots r ∧ Relation.ReflTransGen moves r x) ∧ wanted x := by
  obtain ⟨l, hl, h⟩ := h
  refine ⟨l, hl, fun x hx => ?_⟩
  obtain ⟨hnew, hold, hw⟩ := (h.listed x).1 hx
  exact ⟨(h.reaches x hnew).resolve_left hold, hw⟩

end Closed

theorem returns_closed_foldlM {g : F → β → Except ε F} {l : List β} (roots : β → α → Prop) (f : F)
    (hg : ∀ a ∈ l, ∀ f', (∀ x, k.seen f x → k.seen f' x) →
      Returns (g f' a) (k.Closed moves wanted (roots a) f')) :
    Returns (l.foldlM g f) (k.Closed moves wanted (fun x => ∃ a ∈ l, roots a x) f) := by
  induction l generalizing f with
  | nil => exact returns_pure (.none (by simp))
  | cons a l ih =>
    rw [List.foldlM_cons]
    refine (hg a (by simp) f fun _ => id).bind fun f' hf' => ?_
    refine (ih f' fun b hb f'' hgrows => ?_).imp fun f'' hf'' => ?_
    · exact hg b (by simp [hb]) f'' fun x hx => hgrows x (hf'.grows hx)
    · exact (hf'.append hf'').congr fun x => by simp

/-- A loop over entries in the order of their rank, which the moves keep: what it newly lists
is in this order. -/
theorem returns_ordered_foldlM {g : F → β → Except ε F} {l : List β} {rank : α → Nat}
    {rank' : β → Nat} (roots : β → α → Prop) (f : F) (hl : l.Pairwise fun a b => rank' a ≤ rank' b)
    (hrank : ∀ a ∈ l, ∀ r x, roots a r → Relation.ReflTransGen moves r x → rank x = rank' a)
    (hg : ∀ a ∈ l, ∀ f', (∀ x, k.seen f x → k.seen f' x) →
      Returns (g f' a) (k.Closed moves wanted (roots a) f')) :
    Returns (l.foldlM g f) fun f' => k.Closed moves wanted (fun x => ∃ a ∈ l, roots a x) f f' ∧
      ∀ new, k.listed f' = k.listed f ++ new → new.Pairwise fun x y => rank x ≤ rank y := by
  induction l generalizing f with
  | nil => exact returns_pure ⟨.none (by simp), fun new hnew => by simp_all⟩
  | cons a l ih =>
    obtain ⟨hhead, htail⟩ := List.pairwise_cons.1 hl
    rw [List.foldlM_cons]
    refine (hg a (by simp) f fun _ => id).bind fun f' hf' => ?_
    refine (ih f' htail (fun b hb => hrank b (by simp [hb])) fun b hb f'' hgrows => ?_).imp
      fun f'' ⟨hf'', hsorted⟩ => ⟨(hf'.append hf'').congr fun x => by simp, fun new hnew => ?_⟩
    · exact hg b (by simp [hb]) f'' fun x hx => hgrows x (hf'.grows hx)
    · obtain ⟨l₁, h₁, hl₁⟩ := hf'.exists_listed
      obtain ⟨l₂, h₂, hl₂⟩ := hf''.exists_listed
      obtain rfl : l₁ ++ l₂ = new := by simpa [h₁, h₂] using hnew
      have hfirst {x : α} (hx : x ∈ l₁) : rank x = rank' a := by
        obtain ⟨⟨r, hr, hrx⟩, -⟩ := hl₁ x hx
        exact hrank a (by simp) r x hr hrx
      refine List.pairwise_append.2 ⟨?_, hsorted l₂ h₂, fun x hx y hy => ?_⟩
      · exact List.pairwise_of_forall_mem_list fun x hx y hy => (hfirst hx).trans_le (hfirst hy).ge
      · obtain ⟨⟨r, ⟨b, hb, hr⟩, hry⟩, -⟩ := hl₂ y hy
        rw [hfirst hx, hrank b (by simp [hb]) r y hr hry]
        exact hhead b hb

/-- From all that `t` turns into in one move, the search `close` finds everything. -/
def Resumes (k : Fronts F α) (moves : α → α → Prop) (wanted : α → Prop) (close : α → F → Except ε F)
    (t : α) (f : F) : Prop :=
  ∀ t' f', moves t t' → (∀ x, x = t ∨ k.seen f x → k.seen f' x) →
    Returns (close t' f') (k.Closed moves wanted (· = t') f')

/-- A search comes back, having found everything, when its bound exceeds the number of what is left
to see. -/
theorem returns_of_unseen {close : Nat → α → F → Except ε F} {P : α → Prop}
    (hfin : {x | P x}.Finite) (hmoves : ∀ x y, moves x y → P x → P y)
    (hold : ∀ fuel t f, k.seen f t →
      Returns (close (fuel + 1) t f) (k.Closed moves wanted (· = t) f))
    (hnew : ∀ fuel t f, P t → ¬ k.seen f t → k.Resumes moves wanted (close fuel) t f →
      Returns (close (fuel + 1) t f) (k.Closed moves wanted (· = t) f)) {fuel : Nat} :
    ∀ {t : α} {f : F}, P t → {x | P x ∧ ¬ k.seen f x}.ncard < fuel →
      Returns (close fuel t f) (k.Closed moves wanted (· = t) f) := by
  induction fuel with
  | zero => exact fun _ h => nomatch h
  | succ fuel ih =>
    intro t f ht hfuel
    by_cases hseen : k.seen f t
    · exact hold fuel t f hseen
    · refine hnew fuel t f ht hseen fun t' f' hm hgrows => ih (hmoves t t' hm ht) ?_
      have := ncard_unseen_lt hfin hgrows ht hseen
      omega

end Fronts

namespace Visited

variable {α : Type} [BEq α] [LawfulBEq α] {v : Visited α}

theorem contains_insert_own (number : α → Nat) {a b : α} :
    (v.insert (number a) a).contains (number b) b = true ↔
      b = a ∨ v.contains (number b) b = true := by
  rw [contains_insert]
  constructor
  · exact Or.imp_left And.right
  · rintro (rfl | h)
    · exact .inl ⟨rfl, rfl⟩
    · exact .inr h

theorem not_contains_empty (n : Nat) (a : α) : ¬ ({} : Visited α).contains n a = true := by
  simp [contains, bucket]

end Visited

section places

/-- What an entry of a list says, if there is one. -/
def place (o : Option Nat) : Nat := o.elim 0 (· + 1)

theorem place_injective : Function.Injective place := by
  intro o o' h
  cases o <;> cases o' <;> simp_all [place]

variable {l l' : List Nat} {n b : Nat}

theorem place_le (hl : ∀ q ∈ l, q < b) (i : Nat) : place l[i]? ≤ b := by
  cases hi : l[i]? with
  | none => exact Nat.zero_le _
  | some q => exact hl q (List.mem_of_getElem? hi)

theorem eq_of_places (hl : l.length ≤ n) (hl' : l'.length ≤ n)
    (h : (fun i : Fin n => place l[i.val]?) = fun i => place l'[i.val]?) : l = l' := by
  refine List.ext_getElem? fun i => ?_
  by_cases hi : i < n
  · exact place_injective (congrFun h ⟨i, hi⟩)
  · rw [List.getElem?_eq_none (Nat.le_trans hl (Nat.not_lt.1 hi)),
      List.getElem?_eq_none (Nat.le_trans hl' (Nat.not_lt.1 hi))]

end places

end GrammarWalk
