import GrammarWalk.Outline.Basic
import GrammarWalk.Proofs.Outcome
import Mathlib.Computability.RegularExpressions

/-! What the parts of an outline spell. A part is read as the regular expression of the tree below
it, in which every leaf is a letter of its own. A row of parts spells what its parts spell one after
the other, and what stands ahead of a part, up to the end of its rule, is such a row. -/

namespace GrammarWalk.Outline

namespace Shape

def isChoice : Shape → Bool
  | rule | block => true
  | _ => false

def isRow : Shape → Bool
  | alternative | optional | star | plus => true
  | _ => false

def isElement : Shape → Bool
  | rule | alternative => false
  | _ => true

variable {s : Shape}

theorem isRow_of_isSkippable (h : s.isSkippable = true) : s.isRow = true := by
  cases s <;> first | rfl | cases h

theorem isRow_of_isLoop (h : s.isLoop = true) : s.isRow = true := by
  cases s <;> first | rfl | cases h

theorem cases (s : Shape) : s.isLeaf = true ∨ s.isChoice = true ∨ s.isRow = true := by
  cases s <;> simp [isLeaf, isChoice, isRow]

end Shape

/-- An outline that is made by adding rules, and parts to parts. -/
inductive Built : Outline → Prop
  | nil (source : String) : Built { source }
  | rule {o : Outline} (name : String) : Built o → Built (o.addRule name).2
  | child {o o' : Outline} {id : Nat} (shape : Shape) (name : String) (parent : Nat) : Built o →
      o.add shape name (some parent) = .ok (id, o') → Built o'

/-- Rules and blocks are choices between alternatives; alternatives, optional parts and loops are
rows of blocks, optional parts, loops and leaves; leaves have nothing below them. -/
structure Shaped (o : Outline) : Prop where
  choice : ∀ {i : Nat} {p : Part}, o.parts[i]? = some p → p.shape.isChoice = true →
    p.children ≠ [] ∧ ∀ c ∈ p.children, ∃ q, o.parts[c]? = some q ∧ q.shape = .alternative
  row : ∀ {i : Nat} {p : Part}, o.parts[i]? = some p → p.shape.isRow = true →
    ∀ c ∈ p.children, ∃ q, o.parts[c]? = some q ∧ q.shape.isElement = true
  leaf : ∀ {i : Nat} {p : Part}, o.parts[i]? = some p → p.shape.isLeaf = true → p.children = []

theorem shaped_iff {o : Outline} : o.Shaped ↔ ∀ p ∈ o.parts.toList,
    (p.shape.isChoice = true → p.children ≠ [] ∧
      ∀ c ∈ p.children, (o.parts[c]?).any (·.shape = .alternative) = true) ∧
    (p.shape.isRow = true → ∀ c ∈ p.children, (o.parts[c]?).any (·.shape.isElement) = true) ∧
    (p.shape.isLeaf = true → p.children = []) := by
  simp only [Option.any_eq_true, decide_eq_true_eq]
  constructor
  · intro hs p hp
    obtain ⟨i, hi⟩ := Array.mem_iff_getElem?.1 (Array.mem_toList_iff.1 hp)
    exact ⟨hs.choice hi, hs.row hi, hs.leaf hi⟩
  · intro hall
    have hparts {i : Nat} {p : Part} (hp : o.parts[i]? = some p) :=
      hall p (Array.mem_toList_iff.2 (Array.mem_of_getElem? hp))
    exact ⟨fun hp => (hparts hp).1, fun hp => (hparts hp).2.1, fun hp => (hparts hp).2.2⟩

instance (o : Outline) : Decidable o.Shaped := decidable_of_iff _ shaped_iff.symm

/-- The regular expression of a part with a number, from those of its children. -/
def Shape.expression (i : Nat) (below : List (RegularExpression Nat)) :
    Shape → RegularExpression Nat
  | token _ | reference _ => .char i
  | rule | block => below.foldr (· + ·) 0
  | alternative => below.foldr (· * ·) 1
  | optional => 1 + below.foldr (· * ·) 1
  | star => (below.foldr (· * ·) 1).star
  | plus => below.foldr (· * ·) 1 * (below.foldr (· * ·) 1).star

def expressionOf (o : Outline) : Nat → Nat → RegularExpression Nat
  | 0, _ => 0
  | depth + 1, i => (o.parts[i]?).elim 0 fun p =>
    p.shape.expression i (p.children.map (o.expressionOf depth))

/-- The regular expression of a part. A tree is no deeper than the outline has parts. -/
def expression (o : Outline) (i : Nat) : RegularExpression Nat := o.expressionOf o.size i

/-- A row of parts spells a word. -/
inductive Spells (o : Outline) : List Nat → List Nat → Prop
  | nil : Spells o [] []
  | leaf {i : Nat} {p : Part} {is w : List Nat} : o.parts[i]? = some p → p.shape.isLeaf = true →
      Spells o is w → Spells o (i :: is) (i :: w)
  | choose {i c : Nat} {p : Part} {is w : List Nat} : o.parts[i]? = some p →
      p.shape.isChoice = true →
      c ∈ p.children → Spells o (c :: is) w → Spells o (i :: is) w
  | enter {i : Nat} {p : Part} {is w : List Nat} : o.parts[i]? = some p → p.shape.isRow = true →
      Spells o (p.children ++ is) w → Spells o (i :: is) w
  | skip {i : Nat} {p : Part} {is w : List Nat} : o.parts[i]? = some p →
      p.shape.isSkippable = true →
      Spells o is w → Spells o (i :: is) w
  | again {i : Nat} {p : Part} {is w : List Nat} : o.parts[i]? = some p → p.shape.isLoop = true →
      Spells o (p.children ++ i :: is) w → Spells o (i :: is) w

variable {o : Outline}

section built

/-- What an outline knows of the family of a part. -/
structure Linked (o : Outline) : Prop where
  parent : ∀ {i c : Nat} {p : Part}, o.parts[i]? = some p → c ∈ p.children →
    ∃ q, o.parts[c]? = some q ∧ q.parent = some i
  child : ∀ {i c : Nat} {q : Part}, o.parts[c]? = some q → q.parent = some i →
    i ≤ c ∧ ∃ p, o.parts[i]? = some p ∧ c ∈ p.children
  nodup : ∀ {i : Nat} {p : Part}, o.parts[i]? = some p → p.children.Nodup

theorem Linked.lt_size (h : o.Linked) {i c : Nat} {p : Part} (hp : o.parts[i]? = some p)
    (hc : c ∈ p.children) : c < o.size := by
  obtain ⟨q, hq, -⟩ := h.parent hp hc
  exact (Array.getElem?_eq_some_iff.1 hq).1

theorem Linked.parent_unique (h : o.Linked) {i j c : Nat} {p q : Part} (hp : o.parts[i]? = some p)
    (hc : c ∈ p.children) (hq : o.parts[j]? = some q) (hc' : c ∈ q.children) : i = j ∧ p = q := by
  obtain ⟨r, hr, hparent⟩ := h.parent hp hc
  obtain ⟨r', hr', hparent'⟩ := h.parent hq hc'
  obtain rfl := Option.some.inj (hr.symm.trans hr')
  obtain rfl := Option.some.inj (hparent.symm.trans hparent')
  exact ⟨rfl, Option.some.inj (hp.symm.trans hq)⟩

theorem Linked.addRule (h : o.Linked) (name : String) : (o.addRule name).2.Linked := by
  have hparts (i : Nat) : (o.addRule name).2.parts[i]? =
      if i = o.size then some ⟨.rule, name, none, []⟩ else o.parts[i]? :=
    Array.getElem?_push
  refine ⟨fun {i c p} hp hc => ?_, fun {i c q} hq hparent => ?_, fun {i p} hp => ?_⟩
  · rw [hparts] at hp
    split at hp
    · obtain rfl := Option.some.inj hp
      cases hc
    · obtain ⟨q, hq, hparent⟩ := h.parent hp hc
      exact ⟨q, by rw [hparts, if_neg (h.lt_size hp hc).ne, hq], hparent⟩
  · rw [hparts] at hq
    split at hq
    · obtain rfl := Option.some.inj hq
      cases hparent
    · obtain ⟨hle, p, hp, hc⟩ := h.child hq hparent
      have hlt : i < o.size := (Array.getElem?_eq_some_iff.1 hp).1
      exact ⟨hle, p, by rw [hparts, if_neg hlt.ne, hp], hc⟩
  · rw [hparts] at hp
    split at hp
    · obtain rfl := Option.some.inj hp
      exact List.nodup_nil
    · exact h.nodup hp

theorem add_eq_ok {o' : Outline} {shape : Shape} {name : String} {parent id : Nat}
    (h : o.add shape name (some parent) = .ok (id, o')) : parent ≤ o.size ∧ ∀ i, o'.parts[i]? =
      (if i = o.size then some ⟨shape, name, some parent, []⟩ else o.parts[i]?).map fun p =>
        if i = parent then { p with children := p.children ++ [o.size] } else p := by
  simp only [add, bind_eq_ok, pure_eq_ok, Fault.ofLookup_eq_ok, Prod.mk.injEq] at h
  obtain ⟨p, hp, rfl, rfl⟩ := h
  have hlt : parent < o.parts.size + 1 := by simpa using (Array.getElem?_eq_some_iff.1 hp).1
  refine ⟨Nat.le_of_lt_succ hlt, fun i => ?_⟩
  rw [Array.getElem?_modify, Array.getElem?_push]
  by_cases hi : parent = i
  · subst hi
    simp only [if_true]
    rfl
  · rw [if_neg hi]
    simp only [if_neg (Ne.symm hi), Option.map_id_fun']
    rfl

section add

variable {o' : Outline} {shape : Shape} {name : String} {parent id i : Nat} {p p' : Part}
  (ho : o.add shape name (some parent) = .ok (id, o'))
include ho

theorem add_old (hp : o.parts[i]? = some p) :
    ∃ p', o'.parts[i]? = some p' ∧ p'.parent = p.parent ∧ p.children ⊆ p'.children := by
  obtain ⟨-, hparts⟩ := add_eq_ok ho
  have hne : i ≠ o.size := ((Array.getElem?_eq_some_iff.1 hp).1 : i < o.size).ne
  refine ⟨_, by rw [hparts, if_neg hne, hp]; rfl, ?_, ?_⟩
  · split <;> rfl
  · split
    · exact List.subset_append_left _ _
    · exact List.Subset.refl _

theorem parent_add_new : ∃ q, o'.parts[o.size]? = some q ∧ q.parent = some parent := by
  obtain ⟨-, hparts⟩ := add_eq_ok ho
  refine ⟨_, by rw [hparts, if_pos rfl]; rfl, ?_⟩
  split <;> rfl

theorem mem_children_add : ∃ p, o'.parts[parent]? = some p ∧ o.size ∈ p.children := by
  obtain ⟨hle, hparts⟩ := add_eq_ok ho
  have hlook : ∃ p, (if parent = o.size then some ⟨shape, name, some parent, []⟩
      else o.parts[parent]?) = some p := by
    split
    · exact ⟨_, rfl⟩
    · exact ⟨_, Array.getElem?_eq_getElem (lt_of_le_of_ne hle ‹_›)⟩
  obtain ⟨p, hp⟩ := hlook
  exact ⟨_, by rw [hparts, hp]; rfl, by simp⟩

theorem parent_of_add (hp : o'.parts[i]? = some p') :
    i = o.size ∧ p'.parent = some parent ∨ ∃ p, o.parts[i]? = some p ∧ p'.parent = p.parent := by
  rw [(add_eq_ok ho).2, Option.map_eq_some_iff] at hp
  obtain ⟨p, hp, rfl⟩ := hp
  split at hp
  · rename_i hi
    obtain rfl := Option.some.inj hp
    exact .inl ⟨hi, by split <;> rfl⟩
  · exact .inr ⟨p, hp, by split <;> rfl⟩

theorem children_of_add (hp : o'.parts[i]? = some p') : ∃ cs : List Nat,
    (cs = [] ∨ ∃ p, o.parts[i]? = some p ∧ p.children = cs) ∧
      p'.children = if i = parent then cs ++ [o.size] else cs := by
  rw [(add_eq_ok ho).2, Option.map_eq_some_iff] at hp
  obtain ⟨p, hp, rfl⟩ := hp
  split at hp
  · obtain rfl := Option.some.inj hp
    refine ⟨[], .inl rfl, ?_⟩
    split <;> rfl
  · refine ⟨p.children, .inr ⟨p, hp, rfl⟩, ?_⟩
    split <;> rfl

theorem Linked.add (h : o.Linked) : o'.Linked where
  parent {i c p'} hp hc := by
    obtain ⟨cs, hcs, hchildren⟩ := children_of_add ho hp
    have hold (hc : c ∈ cs) : ∃ q, o'.parts[c]? = some q ∧ q.parent = some i := by
      obtain rfl | ⟨p, hp, rfl⟩ := hcs
      · cases hc
      · obtain ⟨q, hq, hparent⟩ := h.parent hp hc
        obtain ⟨q', hq', hsame, -⟩ := add_old ho hq
        exact ⟨q', hq', hsame.trans hparent⟩
    rw [hchildren] at hc
    split at hc
    · rename_i hi
      obtain hc | hc := List.mem_append.1 hc
      · exact hold hc
      · rw [List.mem_singleton.1 hc, hi]
        exact parent_add_new ho
    · exact hold hc
  child {i c q'} hq hparent := by
    obtain ⟨rfl, hnew⟩ | ⟨q, hq, hsame⟩ := parent_of_add ho hq
    · obtain rfl : parent = i := Option.some.inj (hnew.symm.trans hparent)
      exact ⟨(add_eq_ok ho).1, mem_children_add ho⟩
    · obtain ⟨hle, p, hp, hc⟩ := h.child hq (hsame.symm.trans hparent)
      obtain ⟨p', hp', -, hkept⟩ := add_old ho hp
      exact ⟨hle, p', hp', hkept hc⟩
  nodup {i p'} hp := by
    obtain ⟨cs, hcs, hchildren⟩ := children_of_add ho hp
    have hnodup : cs.Nodup ∧ o.size ∉ cs := by
      obtain rfl | ⟨p, hp, rfl⟩ := hcs
      · exact ⟨List.nodup_nil, List.not_mem_nil⟩
      · exact ⟨h.nodup hp, fun hmem => (h.lt_size hp hmem).false⟩
    rw [hchildren]
    split
    · exact List.nodup_append.2 ⟨hnodup.1, List.nodup_singleton _, by
        rintro a ha b hb rfl
        exact hnodup.2 (List.mem_singleton.1 hb ▸ ha)⟩
    · exact hnodup.1

end add

theorem Built.linked (h : o.Built) : o.Linked := by
  have hnone {i : Nat} {p : Part} : ¬ (#[] : Array Part)[i]? = some p := by simp
  induction h with
  | nil source => exact ⟨fun h => (hnone h).elim, fun h => (hnone h).elim, fun h => (hnone h).elim⟩
  | rule name _ ih => exact ih.addRule name
  | child _ _ _ _ ho ih => exact .add ho ih

end built

section words

variable {is js u v w : List Nat} {i : Nat} {p : Part}

theorem Spells.append (h : o.Spells is u) (h' : o.Spells js v) : o.Spells (is ++ js) (u ++ v) := by
  induction h with
  | nil => exact h'
  | leaf hp hleaf _ ih => exact .leaf hp hleaf ih
  | choose hp hchoice hc _ ih => exact .choose hp hchoice hc ih
  | enter hp hrow _ ih =>
    rw [List.append_assoc] at ih
    exact .enter hp hrow ih
  | skip hp hskip _ ih => exact .skip hp hskip ih
  | again hp hloop _ ih =>
    rw [List.append_assoc] at ih
    exact .again hp hloop ih

end words

section expressions

variable {i c : Nat} {p : Part} {is w : List Nat}

/-- The part is not its own child. -/
def Grounded (o : Outline) (i : Nat) : Prop := ∃ p, o.parts[i]? = some p ∧ p.parent ≠ some i

theorem Linked.grounded_child (h : o.Linked) (hi : o.Grounded i) (hp : o.parts[i]? = some p)
    (hc : c ∈ p.children) : i < c ∧ o.Grounded c := by
  obtain ⟨q, hq, hparent⟩ := h.parent hp hc
  have hne : i ≠ c := by
    rintro rfl
    obtain ⟨p', hp', hnot⟩ := hi
    exact hnot (Option.some.inj (hp'.symm.trans hq) ▸ hparent)
  refine ⟨lt_of_le_of_ne (h.child hq hparent).1 hne, q, hq, ?_⟩
  rw [hparent]
  exact fun heq => hne (Option.some.inj heq)

theorem Grounded.lt_size (h : o.Grounded i) : i < o.size := by
  obtain ⟨p, hp, -⟩ := h
  exact (Array.getElem?_eq_some_iff.1 hp).1

theorem Linked.expressionOf_eq (h : o.Linked) {depth : Nat} :
    ∀ {i depth' : Nat}, o.Grounded i →
    o.size ≤ i + depth → o.size ≤ i + depth' →
    o.expressionOf depth i = o.expressionOf depth' i := by
  induction depth with
  | zero =>
    intro i depth' hi hd hd'
    exact absurd hi.lt_size (Nat.not_lt.2 hd)
  | succ depth ih =>
    intro i depth' hi hd hd'
    cases depth' with
    | zero => exact absurd hi.lt_size (Nat.not_lt.2 hd')
    | succ depth' =>
      obtain ⟨p, hp, -⟩ := id hi
      have hbelow : p.children.map (o.expressionOf depth) =
          p.children.map (o.expressionOf depth') := by
        refine List.map_congr_left fun c hc => ?_
        obtain ⟨hlt, hc⟩ := h.grounded_child hi hp hc
        exact ih hc (by omega) (by omega)
      rw [expressionOf, expressionOf, hp, Option.elim, Option.elim, hbelow]

theorem Linked.expression_eq (h : o.Linked) (hi : o.Grounded i) (hp : o.parts[i]? = some p) :
    o.expression i = p.shape.expression i (p.children.map o.expression) := by
  obtain ⟨size, hsize⟩ : ∃ size, o.size = size + 1 :=
    Nat.exists_eq_succ_of_ne_zero (Nat.ne_zero_of_lt hi.lt_size)
  have hbelow : p.children.map (o.expressionOf size) = p.children.map o.expression := by
    refine List.map_congr_left fun c hc => ?_
    obtain ⟨hlt, hc⟩ := h.grounded_child hi hp hc
    exact h.expressionOf_eq hc (by omega) (by omega)
  rw [expression, hsize, expressionOf, hp, Option.elim, hbelow]

/-- What a row of parts spells, by the expressions of its parts. -/
def rowWords (o : Outline) (is : List Nat) : Language Nat :=
  ((is.map o.expression).foldr (· * ·) 1).matches'

theorem rowWords_nil : o.rowWords [] = 1 := rfl

theorem rowWords_cons : o.rowWords (i :: is) = (o.expression i).matches' * o.rowWords is := rfl

theorem rowWords_append (js : List Nat) :
    o.rowWords (is ++ js) = o.rowWords is * o.rowWords js := by
  induction is with
  | nil => exact (one_mul _).symm
  | cons i is ih => rw [List.cons_append, rowWords_cons, ih, rowWords_cons, mul_assoc]

theorem matches'_sum {below : List (RegularExpression Nat)} :
    w ∈ (below.foldr (· + ·) 0).matches' ↔ ∃ e ∈ below, w ∈ e.matches' := by
  induction below with
  | nil => simp [Language.notMem_zero]
  | cons e below ih =>
    rw [List.foldr_cons, RegularExpression.matches'_add, Language.mem_add, ih]
    simp

theorem Linked.matches'_leaf (h : o.Linked) (hi : o.Grounded i) (hp : o.parts[i]? = some p)
    (hleaf : p.shape.isLeaf = true) : (o.expression i).matches' = {[i]} := by
  rw [h.expression_eq hi hp]
  cases hshape : p.shape <;> simp_all [Shape.isLeaf, Shape.expression]

theorem Linked.matches'_choice (h : o.Linked) (hi : o.Grounded i) (hp : o.parts[i]? = some p)
    (hchoice : p.shape.isChoice = true) :
    w ∈ (o.expression i).matches' ↔ ∃ c ∈ p.children, w ∈ (o.expression c).matches' := by
  rw [h.expression_eq hi hp]
  cases hshape : p.shape <;> simp_all [Shape.isChoice, Shape.expression, matches'_sum]

def Shape.words (row : Language Nat) : Shape → Language Nat
  | optional => 1 + row
  | star => KStar.kstar row
  | plus => row * KStar.kstar row
  | _ => row

theorem Linked.matches'_row (h : o.Linked) (hi : o.Grounded i) (hp : o.parts[i]? = some p)
    (hrow : p.shape.isRow = true) :
    (o.expression i).matches' = p.shape.words (o.rowWords p.children) := by
  rw [h.expression_eq hi hp]
  cases hshape : p.shape <;> simp_all [Shape.isRow, Shape.expression, Shape.words, rowWords]

section shapes

variable {s : Shape} {l : Language Nat} {u v : List Nat}

theorem Shape.mem_words (hu : u ∈ l) : u ∈ s.words l := by
  cases s with
  | optional => exact (Language.mem_add _ _ _).2 (.inr hu)
  | star => exact Language.mem_kstar.2 ⟨[u], by simp, by simpa using hu⟩
  | plus => exact Language.mem_mul.2 ⟨u, hu, [], Language.nil_mem_kstar l, List.append_nil u⟩
  | _ => exact hu

theorem Shape.nil_mem_words (h : s.isSkippable = true) : [] ∈ s.words l := by
  cases s with
  | optional => exact (Language.mem_add _ _ _).2 (.inl rfl)
  | star => exact Language.nil_mem_kstar l
  | _ => cases h

theorem Shape.append_mem_words (h : s.isLoop = true) (hu : u ∈ l) (hv : v ∈ s.words l) :
    u ++ v ∈ s.words l := by
  have more {v : List Nat} (hv : v ∈ KStar.kstar l) {u : List Nat} (hu : u ∈ l) :
      u ++ v ∈ KStar.kstar l := by
    obtain ⟨ws, rfl, hws⟩ := Language.mem_kstar.1 hv
    exact Language.mem_kstar.2 ⟨u :: ws, rfl, by simpa using ⟨hu, hws⟩⟩
  cases s with
  | star => exact more hv hu
  | plus =>
    obtain ⟨a, ha, b, hb, rfl⟩ := Language.mem_mul.1 hv
    exact Language.mem_mul.2 ⟨u, hu, a ++ b, more hb ha, rfl⟩
  | _ => cases h

end shapes

theorem Spells.rowWords (h : o.Linked) (hs : o.Spells is w) :
    (∀ i ∈ is, o.Grounded i) → w ∈ o.rowWords is := by
  have below {i : Nat} {p : Part} {is js : List Nat} (hp : o.parts[i]? = some p)
    (his : ∀ j ∈ i :: is, o.Grounded j)
      (hjs : ∀ j ∈ js, o.Grounded j) : ∀ j ∈ p.children ++ js, o.Grounded j := by
    intro j hj
    obtain hj | hj := List.mem_append.1 hj
    · exact (h.grounded_child (his i (by simp)) hp hj).2
    · exact hjs j hj
  induction hs with
  | nil => exact fun _ => rfl
  | @leaf i p is w hp hleaf _ ih =>
    intro his
    have hrest := ih fun j hj => his j (by simp [hj])
    rw [rowWords_cons, h.matches'_leaf (his i (by simp)) hp hleaf]
    exact Language.mem_mul.2 ⟨[i], rfl, w, hrest, rfl⟩
  | @choose i c p is w hp hchoice hc _ ih =>
    intro his
    have hi := his i (by simp)
    have hgrounded : ∀ j ∈ c :: is, o.Grounded j := by
      intro j hj
      obtain rfl | hj := List.mem_cons.1 hj
      · exact (h.grounded_child hi hp hc).2
      · exact his j (by simp [hj])
    obtain ⟨u, hu, v, hv, rfl⟩ := Language.mem_mul.1 (ih hgrounded)
    exact Language.mem_mul.2 ⟨u, (h.matches'_choice hi hp hchoice).2 ⟨c, hc, hu⟩, v, hv, rfl⟩
  | @enter i p is w hp hrow _ ih =>
    intro his
    have hw := ih (below hp his fun j hj => his j (by simp [hj]))
    rw [rowWords_append] at hw
    obtain ⟨u, hu, v, hv, rfl⟩ := Language.mem_mul.1 hw
    rw [rowWords_cons, h.matches'_row (his i (by simp)) hp hrow]
    exact Language.mem_mul.2 ⟨u, Shape.mem_words hu, v, hv, rfl⟩
  | @skip i p is w hp hskip _ ih =>
    intro his
    have hrest := ih fun j hj => his j (by simp [hj])
    rw [rowWords_cons, h.matches'_row (his i (by simp)) hp (Shape.isRow_of_isSkippable hskip)]
    exact Language.mem_mul.2 ⟨[], Shape.nil_mem_words hskip, w, hrest, rfl⟩
  | @again i p is w hp hloop _ ih =>
    intro his
    have hw := ih (below hp his his)
    have hi := h.matches'_row (his i (by simp)) hp (Shape.isRow_of_isLoop hloop)
    rw [rowWords_append, rowWords_cons, hi] at hw
    obtain ⟨u, hu, v, hv, rfl⟩ := Language.mem_mul.1 hw
    obtain ⟨v₁, hv₁, v₂, hv₂, rfl⟩ := Language.mem_mul.1 hv
    rw [rowWords_cons, hi]
    exact Language.mem_mul.2 ⟨u ++ v₁, Shape.append_mem_words hloop hu hv₁, v₂, hv₂,
      List.append_assoc ..⟩

theorem spells_of_rowWords (hall : ∀ i ∈ is, ∀ w, w ∈ (o.expression i).matches' → o.Spells [i] w) :
    ∀ {w}, w ∈ o.rowWords is → o.Spells is w := by
  induction is with
  | nil =>
    intro w hw
    obtain rfl : w = [] := hw
    exact .nil
  | cons i is ih =>
    intro w hw
    obtain ⟨u, hu, v, hv, rfl⟩ := Language.mem_mul.1 hw
    exact (hall i (by simp) u hu).append (ih (fun j hj => hall j (by simp [hj])) hv)

theorem spells_loop (hp : o.parts[i]? = some p) (hloop : p.shape.isLoop = true)
    {ws : List (List Nat)} (hws : ∀ u ∈ ws, o.Spells p.children u) :
    ∀ {u}, o.Spells p.children u → o.Spells [i] (u ++ ws.flatten) := by
  induction ws with
  | nil =>
    intro u hu
    refine .enter hp (Shape.isRow_of_isLoop hloop) ?_
    simpa using hu
  | cons v ws ih =>
    intro u hu
    exact .again hp hloop (hu.append (ih (fun v hv => hws v (by simp [hv])) (hws v (by simp))))

theorem Linked.spells_of_matches' (h : o.Linked) {depth : Nat} :
    ∀ {i : Nat} {w : List Nat}, o.Grounded i →
    o.size ≤ i + depth → w ∈ (o.expression i).matches' → o.Spells [i] w := by
  induction depth with
  | zero =>
    intro i w hi hd
    exact absurd hi.lt_size (Nat.not_lt.2 hd)
  | succ depth ih =>
    intro i w hi hd hw
    obtain ⟨p, hp, -⟩ := id hi
    have hbelow : ∀ c ∈ p.children, ∀ w, w ∈ (o.expression c).matches' → o.Spells [c] w := by
      intro c hc w hw
      obtain ⟨hlt, hc⟩ := h.grounded_child hi hp hc
      exact ih hc (by omega) hw
    have hrow {w : List Nat} (hw : w ∈ o.rowWords p.children) : o.Spells p.children w :=
      spells_of_rowWords hbelow hw
    obtain hleaf | hchoice | hisRow := p.shape.cases
    · rw [h.matches'_leaf hi hp hleaf] at hw
      obtain rfl : w = [i] := hw
      exact .leaf hp hleaf .nil
    · obtain ⟨c, hc, hw⟩ := (h.matches'_choice hi hp hchoice).1 hw
      exact .choose hp hchoice hc (hbelow c hc w hw)
    · rw [h.matches'_row hi hp hisRow] at hw
      have once {w : List Nat} (hw : w ∈ o.rowWords p.children) : o.Spells [i] w := by
        refine .enter hp hisRow ?_
        simpa using hrow hw
      cases hshape : p.shape with
      | rule | block | token | reference => simp [hshape, Shape.isRow] at hisRow
      | alternative =>
        rw [hshape] at hw
        exact once hw
      | optional =>
        rw [hshape] at hw
        obtain rfl | hw := (Language.mem_add _ _ _).1 hw
        · exact .skip hp (by rw [hshape]; rfl) .nil
        · exact once hw
      | star =>
        rw [hshape] at hw
        obtain ⟨ws, rfl, hws⟩ := Language.mem_kstar.1 hw
        cases ws with
        | nil => exact .skip hp (by rw [hshape]; rfl) .nil
        | cons u ws =>
          exact spells_loop hp (by rw [hshape]; rfl) (fun v hv => hrow (hws v (by simp [hv])))
            (hrow (hws u (by simp)))
      | plus =>
        rw [hshape] at hw
        obtain ⟨u, hu, v, hv, rfl⟩ := Language.mem_mul.1 hw
        obtain ⟨ws, rfl, hws⟩ := Language.mem_kstar.1 hv
        exact spells_loop hp (by rw [hshape]; rfl) (fun v hv => hrow (hws v hv)) (hrow hu)

theorem Linked.spells_iff (h : o.Linked) (hi : o.Grounded i) :
    o.Spells [i] w ↔ w ∈ (o.expression i).matches' := by
  constructor
  · intro hs
    have hw := hs.rowWords h (by simpa using hi)
    rwa [rowWords_cons, rowWords_nil, mul_one] at hw
  · exact h.spells_of_matches' hi (Nat.le_add_left _ _)

end expressions

end GrammarWalk.Outline
