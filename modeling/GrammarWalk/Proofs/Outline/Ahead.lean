import GrammarWalk.Proofs.Outline.Words

/-! What stands ahead of a part: the rows of parts that can be matched after it, up to the end of
its rule. A leaf comes right after another in some word of a rule exactly if a row ahead of the
other spells a word that begins with it. -/

namespace GrammarWalk.Outline

variable {o : Outline} {root i c x y : Nat} {p : Part} {is row u v w : List Nat}

/-- After the part, the row is matched up to the end of the root: the later siblings, and once more
the whole of each loop on the way up that is gone round. -/
inductive Ahead (o : Outline) (root : Nat) : Nat → List Nat → Prop
  | root : Ahead o root root []
  | choice {i c : Nat} {p : Part} {is : List Nat} : o.parts[i]? = some p → p.shape.isChoice = true →
      c ∈ p.children →
      Ahead o root i is → Ahead o root c is
  | row {i c : Nat} {p : Part} {pre post is : List Nat} : o.parts[i]? = some p →
      p.shape.isRow = true →
      p.children = pre ++ c :: post → Ahead o root i is → Ahead o root c (post ++ is)
  | loop {i c : Nat} {p : Part} {pre post is : List Nat} : o.parts[i]? = some p →
      p.shape.isLoop = true →
      p.children = pre ++ c :: post → Ahead o root i is → Ahead o root c (post ++ i :: is)

def IsRoot (o : Outline) (root : Nat) : Prop := ∃ p, o.parts[root]? = some p ∧ p.parent = none

theorem Ahead.grounded (h : o.Linked) (hroot : o.IsRoot root) (ha : o.Ahead root i is) :
    o.Grounded i := by
  induction ha with
  | root =>
    obtain ⟨p, hp, hnone⟩ := hroot
    exact ⟨p, hp, by simp [hnone]⟩
  | choice hp _ hc _ ih => exact (h.grounded_child ih hp hc).2
  | row hp _ hc _ ih => exact (h.grounded_child ih hp (by simp [hc])).2
  | loop hp _ hc _ ih => exact (h.grounded_child ih hp (by simp [hc])).2

section nonempty

theorem exists_spells_row (hall : ∀ i ∈ is, ∃ w, o.Spells [i] w) : ∃ w, o.Spells is w := by
  induction is with
  | nil => exact ⟨[], .nil⟩
  | cons i is ih =>
    obtain ⟨u, hu⟩ := hall i (by simp)
    obtain ⟨v, hv⟩ := ih fun j hj => hall j (by simp [hj])
    exact ⟨u ++ v, hu.append hv⟩

theorem Linked.exists_spells (h : o.Linked) (hs : o.Shaped) {depth : Nat} :
    ∀ {i : Nat}, o.Grounded i →
    o.size ≤ i + depth → ∃ w, o.Spells [i] w := by
  induction depth with
  | zero =>
    intro i hi hd
    exact absurd hi.lt_size (Nat.not_lt.2 hd)
  | succ depth ih =>
    intro i hi hd
    obtain ⟨p, hp, -⟩ := id hi
    have hbelow : ∀ c ∈ p.children, ∃ w, o.Spells [c] w := by
      intro c hc
      obtain ⟨hlt, hc⟩ := h.grounded_child hi hp hc
      exact ih hc (by omega)
    obtain hleaf | hchoice | hrow := p.shape.cases
    · exact ⟨[i], .leaf hp hleaf .nil⟩
    · obtain ⟨c, hc⟩ := List.exists_mem_of_ne_nil _ (hs.choice hp hchoice).1
      obtain ⟨w, hw⟩ := hbelow c hc
      exact ⟨w, .choose hp hchoice hc hw⟩
    · obtain ⟨w, hw⟩ := exists_spells_row hbelow
      exact ⟨w, .enter hp hrow (by simpa using hw)⟩

end nonempty

/-- What is matched from a part on to the end of the root is the end of a word of the root. -/
theorem Ahead.exists_word (h : o.Linked) (hs : o.Shaped) (hroot : o.IsRoot root)
    (ha : o.Ahead root i is) : ∀ {w}, o.Spells (i :: is) w → ∃ u, o.Spells [root] (u ++ w) := by
  -- the siblings before the part spell something
  have before {i : Nat} {p : Part} {pre post : List Nat} {c : Nat} {is : List Nat}
    (ha : o.Ahead root i is)
      (hp : o.parts[i]? = some p) (hc : p.children = pre ++ c :: post) : ∃ u, o.Spells pre u := by
    refine exists_spells_row fun j hj => ?_
    have hj := h.grounded_child (ha.grounded h hroot) hp (by simp [hc, hj] : j ∈ p.children)
    exact h.exists_spells hs hj.2 (Nat.le_add_left _ _)
  induction ha with
  | root =>
    intro w hw
    exact ⟨[], hw⟩
  | choice hp hchoice hc _ ih =>
    intro w hw
    exact ih (.choose hp hchoice hc hw)
  | row hp hrow hc ha ih =>
    intro w hw
    obtain ⟨u, hu⟩ := before ha hp hc
    have hchildren := hu.append hw
    rw [← List.cons_append, ← List.append_assoc, ← hc] at hchildren
    obtain ⟨u', hu'⟩ := ih (.enter hp hrow hchildren)
    exact ⟨u' ++ u, by rwa [List.append_assoc]⟩
  | loop hp hloop hc ha ih =>
    intro w hw
    obtain ⟨u, hu⟩ := before ha hp hc
    have hchildren := hu.append hw
    rw [← List.cons_append, ← List.append_assoc, ← hc] at hchildren
    obtain ⟨u', hu'⟩ := ih (.again hp hloop hchildren)
    exact ⟨u' ++ u, by rwa [List.append_assoc]⟩

/-- Each part of the row has the rest of the row ahead of it. -/
def Stacked (o : Outline) (root : Nat) : List Nat → Prop
  | [] => True
  | i :: is => o.Ahead root i is ∧ Stacked o root is

section stacked

theorem Stacked.append (hrest : o.Stacked root is)
    (hchild : ∀ pre c post, row = pre ++ c :: post → o.Ahead root c (post ++ is)) :
    o.Stacked root (row ++ is) := by
  induction row with
  | nil => exact hrest
  | cons j row ih =>
    refine ⟨hchild [] j row rfl, ih fun pre c post hrow => ?_⟩
    exact hchild (j :: pre) c post (by rw [hrow, List.cons_append])

theorem Ahead.enter (ha : o.Ahead root i is) (hp : o.parts[i]? = some p)
    (hrow : p.shape.isRow = true) (hrest : o.Stacked root is) : o.Stacked root (p.children ++ is) :=
  hrest.append fun _ _ _ hc => .row hp hrow hc ha

theorem Ahead.again (ha : o.Ahead root i is) (hp : o.parts[i]? = some p)
    (hloop : p.shape.isLoop = true) (hrest : o.Stacked root is) :
    o.Stacked root (p.children ++ i :: is) :=
  Stacked.append ⟨ha, hrest⟩ fun _ _ _ hc => .loop hp hloop hc ha

theorem Ahead.stacked (ha : o.Ahead root i is) : o.Stacked root is := by
  have later {row is : List Nat} (hrow : o.Stacked root (row ++ is)) {pre post : List Nat} {c : Nat}
      (hc : row = pre ++ c :: post) : o.Stacked root (post ++ is) := by
    subst hc
    induction pre with
    | nil => exact hrow.2
    | cons j pre ih => exact ih hrow.2
  induction ha with
  | root => trivial
  | choice _ _ _ _ ih => exact ih
  | row hp hrow hc ha ih => exact later (ha.enter hp hrow ih) hc
  | loop hp hloop hc ha ih => exact later (ha.again hp hloop ih) hc

theorem Stacked.grounded (h : o.Linked) (hroot : o.IsRoot root) (hstack : o.Stacked root is) :
    ∀ i ∈ is, o.Grounded i := by
  induction is with
  | nil => simp
  | cons i is ih =>
    intro j hj
    obtain rfl | hj := List.mem_cons.1 hj
    · exact hstack.1.grounded h hroot
    · exact ih hstack.2 j hj

theorem Spells.exists_ahead (hs : o.Spells row w) :
    ∀ {u x v}, o.Stacked root row → w = u ++ x :: v →
    ∃ is, o.Ahead root x is ∧ o.Spells is v := by
  induction hs with
  | nil =>
    intro u x v _ hw
    simp at hw
  | leaf hp _ hrest ih =>
    intro u x v hstack hw
    cases u with
    | nil =>
      obtain ⟨rfl, rfl⟩ := List.cons.inj hw
      exact ⟨_, hstack.1, hrest⟩
    | cons z u => exact ih hstack.2 (List.cons.inj hw).2
  | choose hp hchoice hc _ ih =>
    intro u x v hstack hw
    exact ih ⟨.choice hp hchoice hc hstack.1, hstack.2⟩ hw
  | enter hp hrow _ ih =>
    intro u x v hstack hw
    exact ih (hstack.1.enter hp hrow hstack.2) hw
  | skip _ _ _ ih =>
    intro u x v hstack hw
    exact ih hstack.2 hw
  | again hp hloop _ ih =>
    intro u x v hstack hw
    exact ih (hstack.1.again hp hloop hstack.2) hw

end stacked

theorem comesAfter_iff (h : o.Linked) (hs : o.Shaped) (hroot : o.IsRoot root)
    (hp : o.parts[x]? = some p) (hleaf : p.shape.isLeaf = true) :
    (∃ u, o.Spells [root] (u ++ x :: w)) ↔ ∃ is, o.Ahead root x is ∧ o.Spells is w := by
  constructor
  · rintro ⟨u, hu⟩
    exact hu.exists_ahead ⟨.root, trivial⟩ rfl
  · rintro ⟨is, ha, hw⟩
    exact ha.exists_word h hs hroot (.leaf hp hleaf hw)

section inversion

theorem Ahead.eq_nil (h : o.Linked) (hroot : o.IsRoot root) (ha : o.Ahead root root is) :
    is = [] := by
  have orphan {i : Nat} {p : Part} (hp : o.parts[i]? = some p) (hc : root ∈ p.children) :
      False := by
    obtain ⟨q, hq, hparent⟩ := h.parent hp hc
    obtain ⟨q', hq', hnone⟩ := hroot
    rw [hq, Option.some.injEq] at hq'
    simp [← hq', hparent] at hnone
  cases ha with
  | root => rfl
  | choice hp _ hc _ => exact (orphan hp hc).elim
  | row hp _ hc _ => exact (orphan hp (by simp [hc])).elim
  | loop hp _ hc _ => exact (orphan hp (by simp [hc])).elim

theorem Ahead.of_child (h : o.Linked) (hroot : o.IsRoot root) (hp : o.parts[i]? = some p)
    (hc : c ∈ p.children) (ha : o.Ahead root c is) :
    (p.shape.isChoice = true ∧ o.Ahead root i is) ∨
    ∃ pre post js, p.children = pre ++ c :: post ∧ p.shape.isRow = true ∧ o.Ahead root i js ∧
      (is = post ++ js ∨ p.shape.isLoop = true ∧ is = post ++ i :: js) := by
  cases ha with
  | root =>
    obtain ⟨q, hq, hparent⟩ := h.parent hp hc
    obtain ⟨q', hq', hnone⟩ := hroot
    rw [hq, Option.some.injEq] at hq'
    simp [← hq', hparent] at hnone
  | choice hq hchoice hcq ha =>
    obtain ⟨rfl, rfl⟩ := h.parent_unique hp hc hq hcq
    exact .inl ⟨hchoice, ha⟩
  | row hq hrow hcq ha =>
    obtain ⟨rfl, rfl⟩ := h.parent_unique hp hc hq (by simp [hcq])
    exact .inr ⟨_, _, _, hcq, hrow, ha, .inl rfl⟩
  | loop hq hloop hcq ha =>
    obtain ⟨rfl, rfl⟩ := h.parent_unique hp hc hq (by simp [hcq])
    exact .inr ⟨_, _, _, hcq, Shape.isRow_of_isLoop hloop, ha, .inr ⟨hloop, rfl⟩⟩

end inversion

end GrammarWalk.Outline
