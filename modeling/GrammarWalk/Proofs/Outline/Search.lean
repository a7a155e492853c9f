import GrammarWalk.Proofs.Outline.Questions
import GrammarWalk.Proofs.Search
import Mathlib.Data.Fintype.BigOperators

/-! What the search for the next leaves finds: leaves that can come next, and all of them if the
outline is small enough for the steps that the search may take. -/

namespace GrammarWalk.Outline

open Relation

variable {o : Outline} {filter : Filter} {steps i y : Nat} {p : Part} {seen : Visited Step}
  {found : List Nat}
  {s t : Step} {pending : List Step}

theorem Filter.isLeaf_of_accepts {s : Shape} (h : filter.accepts s = true) : s.isLeaf = true := by
  cases filter <;> cases s <;> simp_all [accepts, Shape.isLeaf]

/-- The question is whether a leaf can start itself, and the leaf passes the filter. -/
def Answers (o : Outline) (filter : Filter) (s : Step) (y : Nat) : Prop :=
  s = .first y ∧ ∃ p, o.parts[y]? = some p ∧ filter.accepts p.shape = true

section cost

def width (o : Outline) (i : Nat) : Nat := (o.parts[i]?).elim 0 (·.children.length)

/-- The number of questions that a question comes down to at most. -/
def cost (o : Outline) : Step → Nat
  | .first i => o.width i + 1
  | .after _ => 2

def questions (o : Outline) : Finset Step :=
  (Finset.range o.size).image .first ∪ (Finset.range o.size).image .after

/-- What the questions that are not yet seen can come down to. -/
def left (o : Outline) (seen : Visited Step) : Nat :=
  ∑ s ∈ o.questions, if seen.contains s.id s then 0 else o.cost s

theorem mem_questions (h : s.id < o.size) : s ∈ o.questions := by
  cases s with
  | first i =>
    exact Finset.mem_union_left _ (Finset.mem_image_of_mem _ (Finset.mem_range.2 h))
  | after i =>
    exact Finset.mem_union_right _ (Finset.mem_image_of_mem _ (Finset.mem_range.2 h))

theorem cost_add_left (h : s.id < o.size) (hseen : seen.contains s.id s = false) :
    o.cost s + o.left (seen.insert s.id s) = o.left seen := by
  have hown : (seen.insert s.id s).contains s.id s = true :=
    (Visited.contains_insert_own Step.id).2 (.inl rfl)
  have hothers : ∑ t ∈ o.questions.erase s,
      (if (seen.insert s.id s).contains t.id t then 0 else o.cost t) =
      ∑ t ∈ o.questions.erase s, if seen.contains t.id t then 0 else o.cost t := by
    refine Finset.sum_congr rfl fun t ht => ?_
    have hiff := Visited.contains_insert_own (v := seen) Step.id (a := s) (b := t)
    rw [or_iff_right (Finset.ne_of_mem_erase ht)] at hiff
    simp only [hiff]
  rw [left, left, ← Finset.add_sum_erase _ _ (mem_questions h),
    ← Finset.add_sum_erase _ _ (mem_questions h), hothers]
  simp [hown, hseen]

def below (o : Outline) (i : Nat) : Finset Nat := ((o.parts[i]?).elim [] (·.children)).toFinset

theorem mem_below : y ∈ o.below i ↔ ∃ p, o.parts[i]? = some p ∧ y ∈ p.children := by
  rw [below, List.mem_toFinset]
  cases hp : o.parts[i]? <;> simp

theorem Linked.card_below (h : o.Linked) : (o.below i).card = o.width i := by
  rw [below, width]
  cases hp : o.parts[i]? with
  | none => rfl
  | some p => exact List.toFinset_card_of_nodup (h.nodup hp)

theorem Linked.sum_width_le (h : o.Linked) : ∑ i ∈ Finset.range o.size, o.width i ≤ o.size := by
  have hdisjoint : (Finset.range o.size : Set Nat).PairwiseDisjoint o.below := by
    intro i _ j _ hij
    refine Finset.disjoint_left.2 fun c hi hj => hij ?_
    obtain ⟨p, hp, hc⟩ := mem_below.1 hi
    obtain ⟨p', hp', hc'⟩ := mem_below.1 hj
    exact (h.parent_unique hp hc hp' hc').1
  have hsub : (Finset.range o.size).biUnion o.below ⊆ Finset.range o.size := by
    intro c hc
    obtain ⟨i, -, hc⟩ := Finset.mem_biUnion.1 hc
    obtain ⟨p, hp, hc⟩ := mem_below.1 hc
    exact Finset.mem_range.2 (h.lt_size hp hc)
  calc ∑ i ∈ Finset.range o.size, o.width i
      = ∑ i ∈ Finset.range o.size, (o.below i).card :=
        Finset.sum_congr rfl fun i _ => h.card_below.symm
    _ = ((Finset.range o.size).biUnion o.below).card := (Finset.card_biUnion hdisjoint).symm
    _ ≤ (Finset.range o.size).card := Finset.card_le_card hsub
    _ = o.size := Finset.card_range _

theorem Linked.left_empty_le (h : o.Linked) : o.left {} ≤ 4 * o.size := by
  have hdisjoint : Disjoint ((Finset.range o.size).image Step.first)
      ((Finset.range o.size).image Step.after) := by
    rw [Finset.disjoint_left]
    simp
  have hcost : o.left {} = ∑ s ∈ o.questions, o.cost s :=
    Finset.sum_congr rfl fun s _ => if_neg (Visited.not_contains_empty _ s)
  rw [hcost, questions, Finset.sum_union hdisjoint, Finset.sum_image (by simp),
    Finset.sum_image (by simp)]
  have hwidth := h.sum_width_le
  simp only [cost, Finset.sum_add_distrib, Finset.sum_const, Finset.card_range, Nat.nsmul_eq_mul]
  omega

end cost

section search

theorem not_leads_of_isLeaf (hp : o.parts[i]? = some p) (hleaf : p.shape.isLeaf = true) :
    ¬ o.Leads (.first i) t := by
  intro hl
  have hshape : p.shape.isChoice = false ∧ p.shape.isRow = false := by
    cases hs : p.shape <;> simp_all [Shape.isLeaf, Shape.isChoice, Shape.isRow]
  cases hl with
  | choose hq hchoice _ =>
    obtain rfl := Option.some.inj (hp.symm.trans hq)
    simp [hshape.1] at hchoice
  | enter hq hrow | through hq hrow =>
    obtain rfl := Option.some.inj (hp.symm.trans hq)
    simp [hshape.2] at hrow

theorem not_answers_after : ¬ o.Answers filter (.after i) y := fun h => nomatch h.1

theorem answers_first_iff (hp : o.parts[i]? = some p) :
    o.Answers filter (.first i) y ↔ y = i ∧ filter.accepts p.shape = true := by
  constructor
  · rintro ⟨heq, q, hq, haccepts⟩
    obtain rfl := Step.first.inj heq
    exact ⟨rfl, Option.some.inj (hp.symm.trans hq) ▸ haccepts⟩
  · rintro ⟨rfl, haccepts⟩
    exact ⟨rfl, p, hp, haccepts⟩

/-- The questions `l` are what a question comes down to, and the leaves `found'` are those found
with its answer. -/
structure Replaces (o : Outline) (filter : Filter) (s : Step) (found : List Nat) (l : List Step)
    (found' : List Nat) : Prop where
  leads : ∀ t, t ∈ l ↔ o.Leads s t
  cost : l.length ≤ o.cost s
  answers : ∀ y, y ∈ found' ↔ y ∈ found ∨ o.Answers filter s y
  nodup : found.Nodup → found'.Nodup

variable {l : List Step}

theorem Replaces.unanswered (hl : ∀ t, t ∈ l ↔ o.Leads s t) (hcost : l.length ≤ o.cost s)
    (hnone : ∀ y, ¬ o.Answers filter s y) : o.Replaces filter s found l found where
  leads := hl
  cost := hcost
  answers y := (or_iff_left (hnone y)).symm
  nodup := id

theorem Replaces.leaf (hp : o.parts[i]? = some p) (hleaf : p.shape.isLeaf = true) :
    o.Replaces filter (.first i) found []
    (if filter.accepts p.shape && !found.contains i then found ++ [i] else found) where
  leads t := by simp [not_leads_of_isLeaf hp hleaf]
  cost := Nat.zero_le _
  answers y := by
    rw [answers_first_iff hp]
    split <;> simp_all
  nodup hnodup := by
    split
    · have hnew : i ∉ found := by simp_all
      refine List.nodup_append.2 ⟨hnodup, List.nodup_singleton i, fun y hy z hz => ?_⟩
      rw [List.mem_singleton.1 hz]
      exact ne_of_mem_of_not_mem hy hnew
    · exact hnodup

theorem search_after (hseen : seen.contains i (.after i) = false) (hl : o.followers i = .ok l) :
    o.search filter (steps + 1) seen found (.after i :: pending) =
      o.search filter steps (seen.insert i (.after i)) found (l ++ pending) := by
  rw [search, Step.id, hseen]
  show (o.followers i >>= _) = _
  rw [hl]
  rfl

theorem search_leaf (hseen : seen.contains i (.first i) = false) (hp : o.parts[i]? = some p)
    (hleaf : p.shape.isLeaf = true) : o.search filter (steps + 1) seen found (.first i :: pending) =
      o.search filter steps (seen.insert i (.first i))
        (if filter.accepts p.shape && !found.contains i then found ++ [i] else found) pending := by
  have hpart : o.part i = .ok p := Fault.ofLookup_eq_ok.2 hp
  rw [search, Step.id, hseen]
  show (o.part i >>= _) = _
  rw [hpart]
  exact if_pos hleaf

theorem search_start (hseen : seen.contains i (.first i) = false) (hp : o.parts[i]? = some p)
    (hleaf : p.shape.isLeaf = false) (hl : o.starts i = .ok l) :
    o.search filter (steps + 1) seen found (.first i :: pending) =
      o.search filter steps (seen.insert i (.first i)) found (l ++ pending) := by
  have hpart : o.part i = .ok p := Fault.ofLookup_eq_ok.2 hp
  rw [search, Step.id, hseen]
  show (o.part i >>= _) = _
  rw [hpart]
  show (if p.shape.isLeaf = true then _ else _) = _
  rw [if_neg (by simp [hleaf])]
  show (o.starts i >>= _) = _
  rw [hl]
  rfl

/-- A question that is new is marked as seen, answered, and replaced by what it comes down to. -/
theorem Linked.search_new (h : o.Linked) (hs : o.Shaped) (filter : Filter) (steps : Nat)
    (found : List Nat) (pending : List Step) (hp : o.parts[s.id]? = some p)
    (hseen : seen.contains s.id s = false) :
    ∃ l found', o.Replaces filter s found l found' ∧
      o.search filter (steps + 1) seen found (s :: pending) =
      o.search filter steps (seen.insert s.id s) found' (l ++ pending) := by
  cases s with
  | after i =>
    obtain ⟨l, hl, hlen, hmem⟩ := h.exists_followers hs hp
    exact ⟨l, found, .unanswered hmem hlen fun _ => not_answers_after, search_after hseen hl⟩
  | first i =>
    replace hp : o.parts[i]? = some p := hp
    cases hleaf : p.shape.isLeaf with
    | true => exact ⟨[], _, .leaf hp hleaf, search_leaf hseen hp hleaf⟩
    | false =>
      obtain ⟨l, hl, hlen, hmem⟩ := h.exists_starts hp hleaf
      have hnone (y : Nat) : ¬ o.Answers filter (.first i) y := by
        rw [answers_first_iff hp]
        exact fun hy => by simp [Filter.isLeaf_of_accepts hy.2] at hleaf
      have hcost : l.length ≤ o.cost (.first i) := by simpa [cost, width, hp] using hlen
      exact ⟨l, found, .unanswered hmem hcost hnone, search_start hseen hp hleaf hl⟩

theorem Linked.exists_part_of_leads (h : o.Linked) (hl : o.Leads s t) :
    ∃ p, o.parts[t.id]? = some p := by
  have child {i c : Nat} {p : Part} (hp : o.parts[i]? = some p) (hc : c ∈ p.children) :
      ∃ q, o.parts[c]? = some q :=
    (h.parent hp hc).imp fun q hq => hq.1
  cases hl with
  | choose hp _ hc => exact child hp hc
  | enter hp _ hc | next hp _ hc | pass hp _ hc => exact child hp (by simp [hc, Step.id])
  | through hp | leave hp | last hp | again hp => exact ⟨_, hp⟩

theorem Linked.exists_part_of_pending (h : o.Linked) (hl : ∀ t, t ∈ l ↔ o.Leads s t)
    (hpending : ∀ t ∈ pending, ∃ p, o.parts[t.id]? = some p) :
    ∀ t ∈ l ++ pending, ∃ p, o.parts[t.id]? = some p := by
  intro t ht
  obtain ht | ht := List.mem_append.1 ht
  · exact h.exists_part_of_leads ((hl t).1 ht)
  · exact hpending t ht

/-- What a search gives is sound: it was found before, or answers what a pending question leads
to. -/
theorem Linked.search_sound (h : o.Linked) (hs : o.Shaped) (filter : Filter) :
    ∀ (steps : Nat) (seen : Visited Step)
    {found : List Nat} {pending : List Step}, (∀ s ∈ pending, ∃ p, o.parts[s.id]? = some p) →
    found.Nodup →
    ∃ result, o.search filter steps seen found pending = .ok result ∧ result.Nodup ∧
    ∀ y ∈ result, y ∈ found ∨
      ∃ s ∈ pending, ∃ t, ReflTransGen o.Leads s t ∧ o.Answers filter t y := by
  intro steps
  induction steps with
  | zero =>
    intro seen found pending _ hnodup
    cases pending with
    | nil | cons => exact ⟨found, rfl, hnodup, fun y hy => .inl hy⟩
  | succ steps ih =>
    intro seen found pending hpending hnodup
    cases pending with
    | nil => exact ⟨found, rfl, hnodup, fun y hy => .inl hy⟩
    | cons s pending =>
      obtain ⟨⟨p, hp⟩, hpending⟩ := List.forall_mem_cons.1 hpending
      cases hseen : seen.contains s.id s with
      | true =>
        obtain ⟨result, hresult, hnodup, hsound⟩ := ih seen hpending hnodup
        refine ⟨result, by rw [search, if_pos hseen, hresult], hnodup,
          fun y hy => (hsound y hy).imp_right ?_⟩
        rintro ⟨s', hs', hy⟩
        exact ⟨s', by simp [hs'], hy⟩
      | false =>
        obtain ⟨l, found', hr, heq⟩ := h.search_new hs filter steps found pending hp hseen
        have hpending' := h.exists_part_of_pending hr.leads hpending
        obtain ⟨result, hresult, hnodup, hsound⟩ :=
          ih (seen.insert s.id s) hpending' (hr.nodup hnodup)
        refine ⟨result, heq.trans hresult, hnodup, fun y hy => ?_⟩
        obtain hy | ⟨t, ht, u, htu, hy⟩ := hsound y hy
        · refine ((hr.answers y).1 hy).imp_right fun hy => ⟨s, by simp, s, .refl, hy⟩
        · obtain ht | ht := List.mem_append.1 ht
          · exact .inr ⟨s, by simp, u, .head ((hr.leads t).1 ht) htu, hy⟩
          · exact .inr ⟨t, by simp [ht], u, htu, hy⟩

/-- What is seen is dealt with: what it leads to is seen or pending, and what answers it is
found. -/
structure Covers (o : Outline) (filter : Filter) (seen : Visited Step) (found : List Nat)
    (pending : List Step) : Prop where
  leads : ∀ s t, seen.contains s.id s = true → o.Leads s t →
    seen.contains t.id t = true ∨ t ∈ pending
  answers : ∀ s y, seen.contains s.id s = true → o.Answers filter s y → y ∈ found

theorem covers_empty : o.Covers filter {} [] pending where
  leads s _ hs := (Visited.not_contains_empty _ s hs).elim
  answers s _ hs := (Visited.not_contains_empty _ s hs).elim

theorem Covers.drop (hc : o.Covers filter seen found (s :: pending))
    (hseen : seen.contains s.id s = true) : o.Covers filter seen found pending where
  leads t u ht htu := by
    obtain hu | hu := hc.leads t u ht htu
    · exact .inl hu
    · obtain rfl | hu := List.mem_cons.1 hu
      · exact .inl hseen
      · exact .inr hu
  answers := hc.answers

theorem Covers.visit (hc : o.Covers filter seen found (s :: pending)) {found' : List Nat}
    (hr : o.Replaces filter s found l found') :
    o.Covers filter (seen.insert s.id s) found' (l ++ pending) where
  leads t u ht htu := by
    have hown {t : Step} := Visited.contains_insert_own (v := seen) Step.id (a := s) (b := t)
    rw [hown, List.mem_append]
    obtain rfl | ht := hown.1 ht
    · exact .inr (.inl ((hr.leads u).2 htu))
    · obtain hu | hu := hc.leads t u ht htu
      · exact .inl (.inr hu)
      · obtain rfl | hu := List.mem_cons.1 hu
        · exact .inl (.inl rfl)
        · exact .inr (.inr hu)
  answers t y ht hy := by
    rw [hr.answers]
    obtain rfl | ht := (Visited.contains_insert_own Step.id).1 ht
    · exact .inr hy
    · exact .inl (hc.answers t y ht hy)

theorem Covers.reaches (hc : o.Covers filter seen found []) (hseen : seen.contains s.id s = true)
    (hl : ReflTransGen o.Leads s t) (hy : o.Answers filter t y) : y ∈ found := by
  have hreach {u : Step} (hl : ReflTransGen o.Leads s u) : seen.contains u.id u = true := by
    induction hl with
    | refl => exact hseen
    | tail _ hst ih => exact (hc.leads _ _ ih hst).resolve_right List.not_mem_nil
  exact hc.answers t y (hreach hl) hy

theorem Linked.search_complete (h : o.Linked) (hs : o.Shaped) :
    ∀ {steps : Nat} {seen : Visited Step}
    {found result : List Nat} {pending : List Step}, (∀ s ∈ pending, ∃ p, o.parts[s.id]? = some p) →
    o.Covers filter seen found pending → pending.length + o.left seen ≤ steps →
    o.search filter steps seen found pending = .ok result →
    ∀ s t y, seen.contains s.id s = true ∨ s ∈ pending → ReflTransGen o.Leads s t →
    o.Answers filter t y →
      y ∈ result := by
  intro steps
  induction steps with
  | zero =>
    intro seen found result pending _ hc hle hresult s t y hheld hst hy
    cases pending with
    | nil =>
      obtain rfl : found = result := Except.ok.inj hresult
      exact hc.reaches (hheld.resolve_right List.not_mem_nil) hst hy
    | cons => simp at hle
  | succ steps ih =>
    intro seen found result pending hpending hc hle hresult s t y hheld hst hy
    cases pending with
    | nil =>
      obtain rfl : found = result := Except.ok.inj hresult
      exact hc.reaches (hheld.resolve_right List.not_mem_nil) hst hy
    | cons r pending =>
      obtain ⟨⟨p, hp⟩, hpending⟩ := List.forall_mem_cons.1 hpending
      rw [List.length_cons] at hle
      cases hseen : seen.contains r.id r with
      | true =>
        rw [search, if_pos hseen] at hresult
        refine ih hpending (hc.drop hseen) (by omega) hresult s t y ?_ hst hy
        obtain hold | hnew := hheld
        · exact .inl hold
        · obtain rfl | hnew := List.mem_cons.1 hnew
          · exact .inl hseen
          · exact .inr hnew
      | false =>
        obtain ⟨l, found', hr, heq⟩ := h.search_new hs filter steps found pending hp hseen
        have hpending' := h.exists_part_of_pending hr.leads hpending
        have hcost := hr.cost
        have hleft := cost_add_left (Array.getElem?_eq_some_iff.1 hp).1 hseen
        refine ih hpending' (hc.visit hr) ?_ (heq.symm.trans hresult) s t y ?_ hst hy
        · rw [List.length_append]
          omega
        · rw [Visited.contains_insert_own Step.id, List.mem_append]
          obtain hold | hnew := hheld
          · exact .inl (.inr hold)
          · obtain rfl | hnew := List.mem_cons.1 hnew
            · exact .inl (.inl rfl)
            · exact .inr (.inr hnew)

end search

section next

variable {c r : Nat} {v w : List Nat}

def IsRule (o : Outline) (r : Nat) : Prop := ∃ p, o.parts[r]? = some p ∧ p.shape = .rule

def IsLeaf (o : Outline) (c : Nat) : Prop := ∃ p, o.parts[c]? = some p ∧ p.shape.isLeaf = true

/-- The part is in the body of the rule. -/
def InBody (o : Outline) (r c : Nat) : Prop :=
  o.IsRule r ∧ ReflTransGen (fun i j => ∃ p, o.parts[i]? = some p ∧ j ∈ p.children) r c

/-- The leaf is one that is looked for. -/
def Admits (o : Outline) (filter : Filter) (y : Nat) : Prop :=
  ∃ p, o.parts[y]? = some p ∧ p.shape.isLeaf = true ∧ filter.accepts p.shape = true

/-- The leaf `y` comes first in a word of the rule `c`, or right after the leaf `c` in a word of the
rule that `c` is in the body of. -/
def ComesNext (o : Outline) (c y : Nat) : Prop :=
  (o.IsRule c ∧ ∃ v, y :: v ∈ (o.expression c).matches') ∨
  o.IsLeaf c ∧ ∃ r, o.InBody r c ∧ ∃ u v, u ++ c :: y :: v ∈ (o.expression r).matches'

theorem IsRule.isRoot (h : o.Linked) (hs : o.Shaped) (hr : o.IsRule r) : o.IsRoot r := by
  obtain ⟨p, hp, hrule⟩ := hr
  refine ⟨p, hp, ?_⟩
  cases hparent : p.parent with
  | none => rfl
  | some i =>
    obtain ⟨-, q, hq, hmem⟩ := h.child hp hparent
    obtain hleaf | hchoice | hrow := q.shape.cases
    · simp [hs.leaf hq hleaf] at hmem
    · obtain ⟨p', hp', halternative⟩ := (hs.choice hq hchoice).2 r hmem
      obtain rfl := Option.some.inj (hp.symm.trans hp')
      simp [hrule] at halternative
    · obtain ⟨p', hp', helement⟩ := hs.row hq hrow r hmem
      obtain rfl := Option.some.inj (hp.symm.trans hp')
      simp [hrule, Shape.isElement] at helement

theorem InBody.under (hs : o.Shaped) (hc : o.InBody r c) : o.Under r c := by
  obtain ⟨-, hpath⟩ := hc
  induction hpath with
  | refl => exact ⟨[], .root⟩
  | tail _ hstep ih =>
    obtain ⟨is, ha⟩ := ih
    obtain ⟨p, hp, hmem⟩ := hstep
    obtain hleaf | hchoice | hrow := p.shape.cases
    · simp [hs.leaf hp hleaf] at hmem
    · exact ⟨is, .choice hp hchoice hmem ha⟩
    · obtain ⟨pre, post, hmem⟩ := List.append_of_mem hmem
      exact ⟨post ++ is, .row hp hrow hmem ha⟩

/-- From the start of a rule the questions lead to the leaves that its words begin with. -/
theorem Linked.leads_first_iff (h : o.Linked) (hs : o.Shaped) (hr : o.IsRule r) (hy : o.IsLeaf y) :
    ReflTransGen o.Leads (.first r) (.first y) ↔ ∃ v, y :: v ∈ (o.expression r).matches' := by
  have hroot := hr.isRoot h hs
  have hgrounded : o.Grounded r := Ahead.root.grounded h hroot
  constructor
  · intro hl
    obtain ⟨p, hp, hleaf⟩ := hy
    obtain ⟨v, hv⟩ := exists_about h hs hroot hp hleaf (s := .first r) ⟨[], .root⟩ hl
    cases hv with
    | first ha hv =>
      rw [ha.eq_nil h hroot] at hv
      exact ⟨v, (h.spells_iff hgrounded).1 hv⟩
  · rintro ⟨v, hv⟩
    obtain hl | ⟨-, hnone⟩ := ((h.spells_iff hgrounded).2 hv).starts hs rfl ⟨.root, trivial⟩
    · exact hl
    · exact hnone.elim

/-- From the end of a leaf the questions lead to the leaves that come right after it in the words of
its rule. -/
theorem Linked.leads_after_iff (h : o.Linked) (hs : o.Shaped) (hc : o.IsLeaf c) (hr : o.InBody r c)
    (hy : o.IsLeaf y) : ReflTransGen o.Leads (.after c) (.first y) ↔
      ∃ u v, u ++ c :: y :: v ∈ (o.expression r).matches' := by
  have hroot := hr.1.isRoot h hs
  have hgrounded : o.Grounded r := Ahead.root.grounded h hroot
  obtain ⟨q, hq, hcLeaf⟩ := hc
  constructor
  · intro hl
    obtain ⟨p, hp, hleaf⟩ := hy
    obtain ⟨v, hv⟩ := exists_about h hs hroot hp hleaf (s := .after c) (hr.under hs) hl
    cases hv with
    | after ha hv =>
      obtain ⟨u, hu⟩ := (comesAfter_iff h hs hroot hq hcLeaf).2 ⟨_, ha, hv⟩
      exact ⟨u, v, (h.spells_iff hgrounded).1 hu⟩
  · rintro ⟨u, v, hv⟩
    obtain ⟨is, ha, hv⟩ :=
      (comesAfter_iff h hs hroot hq hcLeaf).1 ⟨u, (h.spells_iff hgrounded).2 hv⟩
    exact ha.follows (hv.starts hs rfl ha.stacked)

/-- What the search begins with for a rule, or for a leaf of a rule. -/
def BeginsWith (o : Outline) (c : Nat) (s : Step) : Prop :=
  o.IsRule c ∧ s = .first c ∨ o.IsLeaf c ∧ (∃ r, o.InBody r c) ∧ s = .after c

theorem IsRule.not_isLeaf (hr : o.IsRule r) : ¬ o.IsLeaf r := by
  obtain ⟨p, hp, hrule⟩ := hr
  rintro ⟨q, hq, hleaf⟩
  obtain rfl := Option.some.inj (hp.symm.trans hq)
  simp [hrule, Shape.isLeaf] at hleaf

theorem returns_begin (hc : o.IsRule c ∨ o.IsLeaf c ∧ ∃ r, o.InBody r c) :
    Returns (do return if (← o.part c).shape = .rule then Step.first c else Step.after c)
    (o.BeginsWith c) := by
  obtain hrule | ⟨hleaf, hbody⟩ := hc
  · obtain ⟨p, hp, hshape⟩ := id hrule
    refine (returns_ofLookup hp rfl).bind fun q hq => returns_pure (.inl ⟨hrule, ?_⟩)
    rw [← hq, if_pos hshape]
  · obtain ⟨p, hp, hshape⟩ := id hleaf
    refine (returns_ofLookup hp rfl).bind fun q hq => returns_pure (.inr ⟨hleaf, hbody, ?_⟩)
    rw [← hq, if_neg]
    intro hrule
    simp [hrule, Shape.isLeaf] at hshape

theorem BeginsWith.leads_iff (h : o.Linked) (hs : o.Shaped) (hc : o.BeginsWith c s) :
    (∃ t, ReflTransGen o.Leads s t ∧ o.Answers filter t y) ↔
      o.Admits filter y ∧ o.ComesNext c y := by
  have hanswered : (∃ t, ReflTransGen o.Leads s t ∧ o.Answers filter t y) ↔
      o.Admits filter y ∧ ReflTransGen o.Leads s (.first y) := by
    constructor
    · rintro ⟨t, hl, rfl, p, hp, haccepts⟩
      exact ⟨⟨p, hp, Filter.isLeaf_of_accepts haccepts, haccepts⟩, hl⟩
    · rintro ⟨⟨p, hp, -, haccepts⟩, hl⟩
      exact ⟨.first y, hl, rfl, p, hp, haccepts⟩
  rw [hanswered, and_congr_right_iff]
  rintro ⟨p, hp, hleaf, -⟩
  have hy : o.IsLeaf y := ⟨p, hp, hleaf⟩
  obtain ⟨hrule, rfl⟩ | ⟨hc, ⟨r, hr⟩, rfl⟩ := hc
  · rw [h.leads_first_iff hs hrule hy]
    simp only [ComesNext, hrule, hrule.not_isLeaf, true_and, false_and, or_false]
  · have hnot : ¬ o.IsRule c := fun hrule => hrule.not_isLeaf hc
    simp only [ComesNext, hnot, hc, true_and, false_and, false_or]
    constructor
    · intro hl
      exact ⟨r, hr, (h.leads_after_iff hs hc hr hy).1 hl⟩
    · rintro ⟨r, hr, hw⟩
      exact (h.leads_after_iff hs hc hr hy).2 hw

/-- The leaves that the search gives are leaves that can come next, each of them once, and if the
outline is small enough for the steps of the search, they are all that can. -/
theorem nextLeaves_exact (hb : o.Built) (hs : o.Shaped) {current : List Nat}
    (hcurrent : ∀ c ∈ current, o.IsRule c ∨ o.IsLeaf c ∧ ∃ r, o.InBody r c) (filter : Filter) :
    ∃ found, o.nextLeaves current filter = .ok found ∧ found.Nodup ∧
      (∀ y ∈ found, o.Admits filter y ∧ ∃ c ∈ current, o.ComesNext c y) ∧
      (current.length + 4 * o.size ≤ 4096 → ∀ y, o.Admits filter y →
      (∃ c ∈ current, o.ComesNext c y) → y ∈ found) := by
  have h := hb.linked
  obtain ⟨pending, hpending, hbegins⟩ := returns_mapM fun c hc => returns_begin (hcurrent c hc)
  have hparts : ∀ s ∈ pending, ∃ p, o.parts[s.id]? = some p := by
    intro s hmem
    obtain ⟨c, -, hs⟩ := exists_of_forall₂_right hbegins hmem
    obtain ⟨⟨p, hp, -⟩, rfl⟩ | ⟨⟨p, hp, -⟩, -, rfl⟩ := hs
    · exact ⟨p, hp⟩
    · exact ⟨p, hp⟩
  obtain ⟨found, hfound, hnodup, hsound⟩ := h.search_sound hs filter maxSteps {} hparts
    List.nodup_nil
  refine ⟨found, bind_eq_ok.2 ⟨pending, hpending, hfound⟩, hnodup, fun y hy => ?_,
    fun hle y hadmits hy => ?_⟩
  · obtain ⟨s, hmem, hl⟩ := (hsound y hy).resolve_left List.not_mem_nil
    obtain ⟨c, hc, hcs⟩ := exists_of_forall₂_right hbegins hmem
    obtain ⟨hadmits, hnext⟩ := (hcs.leads_iff h hs).1 hl
    exact ⟨hadmits, c, hc, hnext⟩
  · obtain ⟨c, hc, hnext⟩ := hy
    obtain ⟨s, hmem, hcs⟩ := exists_of_forall₂_left hbegins hc
    obtain ⟨t, hl, hanswers⟩ := (hcs.leads_iff h hs).2 ⟨hadmits, hnext⟩
    have hsteps : pending.length + o.left {} ≤ maxSteps := by
      have hleft := h.left_empty_le
      have hlength := hbegins.length_eq
      rw [maxSteps]
      omega
    exact h.search_complete hs hparts covers_empty hsteps hfound s t y (.inr hmem) hl hanswers

/-- A rule that can begin with a leaf and goes on with a loop of others, `a : b? b+`. -/
def optionalThenLoop : Outline where
  parts := #[⟨.rule, "a", none, [1]⟩, ⟨.alternative, "", some 0, [2, 4]⟩,
    ⟨.optional, "", some 1, [3]⟩, ⟨.reference "b", "b", some 2, []⟩, ⟨.plus, "", some 1, [5]⟩,
    ⟨.reference "b", "b", some 4, []⟩]
  rules := [("a", 0)]

theorem optionalThenLoop_built : optionalThenLoop.Built := by
  have h0 : Built _ := .rule "a" (.nil "")
  have h1 : Built _ := .child .alternative "" 0 h0 rfl
  have h2 : Built _ := .child .optional "" 1 h1 rfl
  have h3 : Built _ := .child (.reference "b") "b" 2 h2 rfl
  have h4 : Built _ := .child .plus "" 1 h3 rfl
  exact .child (.reference "b") "b" 4 h4 rfl

theorem nextLeaves_exact_loop :
    optionalThenLoop.Built ∧ optionalThenLoop.Shaped ∧
    (∀ c ∈ [0, 5], optionalThenLoop.IsRule c ∨ optionalThenLoop.IsLeaf c ∧
    ∃ r, optionalThenLoop.InBody r c) ∧
    ∃ found, optionalThenLoop.nextLeaves [0, 5] (.rule "b") = .ok found ∧ found.Nodup ∧
      (∀ y ∈ found, optionalThenLoop.Admits (.rule "b") y ∧ ∃ c ∈ [0, 5],
      optionalThenLoop.ComesNext c y) ∧
      ([0, 5].length + 4 * optionalThenLoop.size ≤ 4096 →
      ∀ y, optionalThenLoop.Admits (.rule "b") y →
        (∃ c ∈ [0, 5], optionalThenLoop.ComesNext c y) → y ∈ found) := by
  have hs : optionalThenLoop.Shaped := by decide
  have hrule : optionalThenLoop.IsRule 0 := ⟨_, rfl, rfl⟩
  have hleaf : optionalThenLoop.IsLeaf 5 := ⟨_, rfl, rfl⟩
  have halternative : ∃ p, optionalThenLoop.parts[0]? = some p ∧ 1 ∈ p.children :=
    ⟨_, rfl, by decide⟩
  have hloop : ∃ p, optionalThenLoop.parts[1]? = some p ∧ 4 ∈ p.children := ⟨_, rfl, by decide⟩
  have hinside : ∃ p, optionalThenLoop.parts[4]? = some p ∧ 5 ∈ p.children := ⟨_, rfl, by decide⟩
  have hbody : optionalThenLoop.InBody 0 5 :=
    ⟨hrule, .head halternative (.head hloop (.single hinside))⟩
  have hcurrent : ∀ c ∈ [0, 5], optionalThenLoop.IsRule c ∨ optionalThenLoop.IsLeaf c ∧
      ∃ r, optionalThenLoop.InBody r c := by
    simp only [List.forall_mem_cons]
    exact ⟨.inl hrule, .inr ⟨hleaf, 0, hbody⟩, by simp⟩
  exact ⟨optionalThenLoop_built, hs, hcurrent,
    nextLeaves_exact optionalThenLoop_built hs hcurrent _⟩

example : optionalThenLoop.nextLeaves [0, 5] (.rule "b") = .ok [3, 5] := by decide +kernel

end next

end GrammarWalk.Outline
