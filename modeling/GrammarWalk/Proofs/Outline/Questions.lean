import GrammarWalk.Outline.Next
import GrammarWalk.Proofs.Outline.Ahead

/-! The questions of the search, and what they come down to. A question is about the words that can
be spelled from a part on, or after a part. Whatever such a word begins with, the questions lead to,
and nothing else. -/

namespace GrammarWalk.Outline

open Relation

variable {o : Outline} {root i c d x y : Nat} {p : Part}
  {is js row pre post v w : List Nat} {s t : Step}

def Skippable (o : Outline) (i : Nat) : Prop :=
  ∃ p, o.parts[i]? = some p ∧ p.shape.isSkippable = true

/-- A question comes down to another. -/
inductive Leads (o : Outline) : Step → Step → Prop
  | choose {i c : Nat} {p : Part} : o.parts[i]? = some p → p.shape.isChoice = true →
      c ∈ p.children →
      Leads o (.first i) (.first c)
  | enter {i c : Nat} {p : Part} {pre post : List Nat} : o.parts[i]? = some p →
      p.shape.isRow = true →
      p.children = pre ++ c :: post → (∀ j ∈ pre, o.Skippable j) → Leads o (.first i) (.first c)
  | through {i : Nat} {p : Part} : o.parts[i]? = some p → p.shape.isRow = true →
      (∀ j ∈ p.children, o.Skippable j) → Leads o (.first i) (.after i)
  | leave {i c : Nat} {p : Part} : o.parts[i]? = some p → p.shape.isChoice = true → c ∈ p.children →
      Leads o (.after c) (.after i)
  | next {i c d : Nat} {p : Part} {pre post : List Nat} : o.parts[i]? = some p →
      p.shape.isRow = true →
      p.children = pre ++ c :: d :: post → Leads o (.after c) (.first d)
  | pass {i c d : Nat} {p : Part} {pre post : List Nat} : o.parts[i]? = some p →
      p.shape.isRow = true →
      p.children = pre ++ c :: d :: post → o.Skippable d → Leads o (.after c) (.after d)
  | last {i c : Nat} {p : Part} {pre : List Nat} : o.parts[i]? = some p → p.shape.isRow = true →
      p.children = pre ++ [c] → Leads o (.after c) (.after i)
  | again {i c : Nat} {p : Part} {pre : List Nat} : o.parts[i]? = some p → p.shape.isLoop = true →
      p.children = pre ++ [c] → Leads o (.after c) (.first i)

section starts

theorem not_isRow_of_isChoice {s : Shape} (h : s.isChoice = true) : s.isRow ≠ true := by
  cases s <;> simp_all [Shape.isChoice, Shape.isRow]

theorem starts_of_choice (hp : o.parts[i]? = some p) (hchoice : p.shape.isChoice = true) :
    o.starts i = .ok (p.children.map .first) := by
  obtain ⟨shape, name, parent, children⟩ := p
  cases shape with
  | rule | block =>
    rw [starts, part, hp]
    rfl
  | _ => cases hchoice

theorem starts_of_row (hp : o.parts[i]? = some p) (hrow : p.shape.isRow = true) :
    o.starts i = o.sequenceStarts i p.children := by
  obtain ⟨shape, name, parent, children⟩ := p
  cases shape with
  | alternative | optional | star | plus =>
    rw [starts, part, hp]
    rfl
  | _ => cases hrow

/-- A row can start with what only skippable parts stand before, or be passed through if all of it
is skippable. -/
theorem exists_sequenceStarts : ∀ {cs : List Nat}, (∀ c ∈ cs, ∃ q, o.parts[c]? = some q) →
    ∃ l, o.sequenceStarts i cs = .ok l ∧ l.length ≤ cs.length + 1 ∧ ∀ t, t ∈ l ↔
      (t = .after i ∧ ∀ c ∈ cs, o.Skippable c) ∨
      ∃ pre c post, cs = pre ++ c :: post ∧ (∀ j ∈ pre, o.Skippable j) ∧ t = .first c := by
  intro cs
  induction cs with
  | nil =>
    intro _
    exact ⟨[.after i], rfl, Nat.le_refl _, by simp⟩
  | cons c cs ih =>
    intro hcs
    obtain ⟨q, hq⟩ := hcs c (by simp)
    obtain ⟨l, hl, hlen, hmem⟩ := ih fun c hc => hcs c (by simp [hc])
    have hskip : o.Skippable c ↔ q.shape.isSkippable = true := by simp [Skippable, hq]
    have hsplit (t : Step) :
        (∃ pre d post, c :: cs = pre ++ d :: post ∧ (∀ j ∈ pre, o.Skippable j) ∧ t = .first d) ↔
        t = .first c ∨ o.Skippable c ∧
          ∃ pre d post, cs = pre ++ d :: post ∧ (∀ j ∈ pre, o.Skippable j) ∧ t = .first d := by
      constructor
      · rintro ⟨pre, d, post, hrow, hpre, rfl⟩
        cases pre with
        | nil => exact .inl (congrArg Step.first (List.cons.inj hrow).1.symm)
        | cons j pre =>
          obtain ⟨rfl, htail⟩ := List.cons.inj hrow
          exact .inr ⟨hpre c (by simp), pre, d, post, htail, fun j hj => hpre j (by simp [hj]), rfl⟩
      · rintro (rfl | ⟨hc, pre, d, post, rfl, hpre, rfl⟩)
        · exact ⟨[], c, cs, rfl, by simp, rfl⟩
        · exact ⟨c :: pre, d, post, rfl, by simpa [hc] using hpre, rfl⟩
    rw [sequenceStarts, part, hq]
    by_cases hc : q.shape.isSkippable = true
    · refine ⟨.first c :: l, ?_, by simpa using hlen, fun t => ?_⟩
      · show (if q.shape.isSkippable then _ else _) = _
        rw [if_pos hc, hl]
        rfl
      · rw [List.mem_cons, hmem, hsplit, List.forall_mem_cons, hskip]
        simp only [hc, true_and]
        exact or_left_comm
    · refine ⟨[.first c], ?_, by simp, fun t => ?_⟩
      · show (if q.shape.isSkippable then _ else _) = _
        rw [if_neg hc]
        rfl
      · rw [hsplit, List.forall_mem_cons, hskip]
        simp [hc]

theorem Linked.exists_starts (h : o.Linked) (hp : o.parts[i]? = some p)
    (hleaf : p.shape.isLeaf = false) :
    ∃ l, o.starts i = .ok l ∧ l.length ≤ p.children.length + 1 ∧ ∀ t, t ∈ l ↔
      o.Leads (.first i) t := by
  have same {q : Part} (hq : o.parts[i]? = some q) : p = q := Option.some.inj (hp.symm.trans hq)
  obtain hisLeaf | hchoice | hrow := p.shape.cases
  · simp [hleaf] at hisLeaf
  · refine ⟨_, starts_of_choice hp hchoice, by simp, fun t => ?_⟩
    rw [List.mem_map]
    constructor
    · rintro ⟨c, hc, rfl⟩
      exact .choose hp hchoice hc
    · intro hl
      cases hl with
      | choose hq _ hc =>
        obtain rfl := same hq
        exact ⟨_, hc, rfl⟩
      | enter hq hrow | through hq hrow =>
        obtain rfl := same hq
        exact absurd hrow (not_isRow_of_isChoice hchoice)
  · obtain ⟨l, hl, hlen, hmem⟩ := exists_sequenceStarts (i := i) fun c hc =>
      (h.parent hp hc).imp fun q hq => hq.1
    refine ⟨l, (starts_of_row hp hrow).trans hl, hlen, fun t => ?_⟩
    rw [hmem]
    constructor
    · rintro (⟨rfl, hskip⟩ | ⟨pre, c, post, hc, hskip, rfl⟩)
      · exact .through hp hrow hskip
      · exact .enter hp hrow hc hskip
    · intro hl
      cases hl with
      | choose hq hchoice _ =>
        obtain rfl := same hq
        exact absurd hrow (not_isRow_of_isChoice hchoice)
      | enter hq _ hc hskip =>
        obtain rfl := same hq
        exact .inr ⟨_, _, _, hc, hskip, rfl⟩
      | through hq _ hskip =>
        obtain rfl := same hq
        exact .inl ⟨rfl, hskip⟩

end starts

section followers

theorem idxOf?_append_cons {pre post : List Nat} (hc : c ∉ pre) :
    (pre ++ c :: post).idxOf? c = some pre.length := by
  induction pre with
  | nil => simp [List.idxOf?_cons]
  | cons j pre ih =>
    obtain ⟨hne, hc⟩ := not_or.1 (mt List.mem_cons.2 hc)
    simp [List.idxOf?_cons, ih hc, Ne.symm hne]

theorem Linked.not_mem_before (h : o.Linked) (hp : o.parts[i]? = some p)
    (hc : p.children = pre ++ c :: post) : c ∉ pre ∧ c ∉ post := by
  have hnodup := h.nodup hp
  rw [hc, List.nodup_middle, List.nodup_cons, List.mem_append, not_or] at hnodup
  exact hnodup.1

theorem Linked.nextSibling?_eq (h : o.Linked) (hp : o.parts[i]? = some p)
    (hc : p.children = pre ++ c :: post) : o.nextSibling? c = .ok post.head? := by
  obtain ⟨q, hq, hparent⟩ := h.parent hp (by simp [hc] : c ∈ p.children)
  refine bind_eq_ok.2 ⟨q, Fault.ofLookup_eq_ok.2 hq, ?_⟩
  rw [hparent]
  refine bind_eq_ok.2 ⟨p, Fault.ofLookup_eq_ok.2 hp, pure_eq_ok.2 ?_⟩
  rw [hc, idxOf?_append_cons (h.not_mem_before hp hc).1]
  cases post <;> simp

theorem followers_of_alone (hp : o.parts[c]? = some p) (halone : p.parent = none) :
    o.followers c = .ok [] := by
  obtain ⟨shape, name, parent, children⟩ := p
  obtain rfl : parent = none := halone
  have hsibling : o.nextSibling? c = .ok none := bind_eq_ok.2 ⟨_, Fault.ofLookup_eq_ok.2 hp, rfl⟩
  refine bind_eq_ok.2 ⟨_, Fault.ofLookup_eq_ok.2 hp, ?_⟩
  cases shape with
  | rule | alternative => rfl
  | _ => exact bind_eq_ok.2 ⟨_, hsibling, rfl⟩

theorem Linked.followers_of_choice (h : o.Linked) (hs : o.Shaped) (hp : o.parts[i]? = some p)
    (hchoice : p.shape.isChoice = true) (hc : c ∈ p.children) : o.followers c = .ok [.after i] := by
  obtain ⟨q, hq, hparent⟩ := h.parent hp hc
  obtain ⟨q', hq', halternative⟩ := (hs.choice hp hchoice).2 c hc
  obtain rfl := Option.some.inj (hq.symm.trans hq')
  refine bind_eq_ok.2 ⟨q, Fault.ofLookup_eq_ok.2 hq, ?_⟩
  simp only [halternative, hparent]
  rfl

/-- Before another element of a row comes that element, and what comes after it if it can be
skipped. -/
theorem Linked.followers_of_next (h : o.Linked) (hs : o.Shaped) (hp : o.parts[i]? = some p)
    (hrow : p.shape.isRow = true) (hc : p.children = pre ++ c :: d :: post) {r : Part}
    (hr : o.parts[d]? = some r) :
    o.followers c = .ok (.first d :: if r.shape.isSkippable then [.after d] else []) := by
  have hmem : c ∈ p.children := by simp [hc]
  have hsibling : o.nextSibling? c = .ok (some d) := h.nextSibling?_eq hp hc
  obtain ⟨q, hq, helement⟩ := hs.row hp hrow c hmem
  obtain ⟨shape, name, parent, children⟩ := q
  refine bind_eq_ok.2 ⟨_, Fault.ofLookup_eq_ok.2 hq, ?_⟩
  cases shape with
  | rule | alternative => cases helement
  | _ =>
    exact bind_eq_ok.2 ⟨_, hsibling, bind_eq_ok.2 ⟨r, Fault.ofLookup_eq_ok.2 hr, rfl⟩⟩

/-- After the last element of a row comes what comes after the row, or the row again if it is a
loop. -/
theorem Linked.followers_of_last (h : o.Linked) (hs : o.Shaped) (hp : o.parts[i]? = some p)
    (hrow : p.shape.isRow = true) (hc : p.children = pre ++ [c]) :
    o.followers c = .ok ((if p.shape.isLoop then [.first i] else []) ++ [.after i]) := by
  have hmem : c ∈ p.children := by simp [hc]
  have hsibling : o.nextSibling? c = .ok none := h.nextSibling?_eq hp hc
  obtain ⟨q, hq, helement⟩ := hs.row hp hrow c hmem
  obtain ⟨q', hq', hparent⟩ := h.parent hp hmem
  obtain rfl := Option.some.inj (hq.symm.trans hq')
  obtain ⟨shape, name, parent, children⟩ := q
  obtain rfl : parent = some i := hparent
  refine bind_eq_ok.2 ⟨_, Fault.ofLookup_eq_ok.2 hq, ?_⟩
  cases shape with
  | rule | alternative => cases helement
  | _ =>
    exact bind_eq_ok.2 ⟨_, hsibling, bind_eq_ok.2 ⟨p, Fault.ofLookup_eq_ok.2 hp, rfl⟩⟩

theorem Linked.exists_followers (h : o.Linked) (hs : o.Shaped) {q : Part}
    (hq : o.parts[c]? = some q) :
    ∃ l, o.followers c = .ok l ∧ l.length ≤ 2 ∧ ∀ t, t ∈ l ↔ o.Leads (.after c) t := by
  -- the list is the one that the place of the part calls for
  have listed {l : List Step} (hl : o.followers c = .ok l) : ∀ t, o.Leads (.after c) t → t ∈ l := by
    have same {l' : List Step} (hl' : o.followers c = .ok l') : l = l' :=
      Except.ok.inj (hl.symm.trans hl')
    intro t ht
    cases ht with
    | leave hp hchoice hc => simp [same (h.followers_of_choice hs hp hchoice hc)]
    | @next i c d p pre post hp hrow hc =>
      obtain ⟨r, hr, -⟩ := h.parent hp (by simp [hc] : d ∈ p.children)
      simp [same (h.followers_of_next hs hp hrow hc hr)]
    | pass hp hrow hc hskip =>
      obtain ⟨r, hr, hskip⟩ := hskip
      simp [same (h.followers_of_next hs hp hrow hc hr), hskip]
    | last hp hrow hc => simp [same (h.followers_of_last hs hp hrow hc)]
    | again hp hloop hc =>
      simp [same (h.followers_of_last hs hp (Shape.isRow_of_isLoop hloop) hc), hloop]
  suffices hsuff : ∃ l, o.followers c = .ok l ∧ l.length ≤ 2 ∧ ∀ t ∈ l, o.Leads (.after c) t by
    obtain ⟨l, hl, hlen, hleads⟩ := hsuff
    exact ⟨l, hl, hlen, fun t => ⟨hleads t, listed hl t⟩⟩
  cases hparent : q.parent with
  | none => exact ⟨[], followers_of_alone hq hparent, by simp, by simp⟩
  | some i =>
    obtain ⟨-, p, hp, hc⟩ := h.child hq hparent
    obtain hleaf | hchoice | hrow := p.shape.cases
    · rw [hs.leaf hp hleaf] at hc
      cases hc
    · refine ⟨_, h.followers_of_choice hs hp hchoice hc, by simp, fun t ht => ?_⟩
      obtain rfl := List.mem_singleton.1 ht
      exact .leave hp hchoice hc
    · obtain ⟨pre, post, hc⟩ := List.append_of_mem hc
      cases post with
      | nil =>
        refine ⟨_, h.followers_of_last hs hp hrow hc, by split <;> simp, fun t ht => ?_⟩
        obtain ht | ht := List.mem_append.1 ht
        · split at ht
          · obtain rfl := List.mem_singleton.1 ht
            exact .again hp ‹_› hc
          · cases ht
        · obtain rfl := List.mem_singleton.1 ht
          exact .last hp hrow hc
      | cons d post =>
        obtain ⟨r, hr, -⟩ := h.parent hp (by simp [hc] : d ∈ p.children)
        refine ⟨_, h.followers_of_next hs hp hrow hc hr, by split <;> simp, fun t ht => ?_⟩
        obtain rfl | ht := List.mem_cons.1 ht
        · exact .next hp hrow hc
        · split at ht
          · obtain rfl := List.mem_singleton.1 ht
            exact .pass hp hrow hc ⟨r, hr, ‹_›⟩
          · cases ht

end followers

section sound

/-- The words that a question is about, up to the end of the root. -/
inductive About (o : Outline) (root : Nat) : Step → List Nat → Prop
  | first {i : Nat} {is w : List Nat} : o.Ahead root i is → o.Spells (i :: is) w →
      About o root (.first i) w
  | after {i : Nat} {is w : List Nat} : o.Ahead root i is → o.Spells is w →
      About o root (.after i) w

theorem Spells.skip_all (hrow : ∀ j ∈ row, o.Skippable j) (hw : o.Spells is w) :
    o.Spells (row ++ is) w := by
  induction row with
  | nil => exact hw
  | cons j row ih =>
    obtain ⟨q, hq, hskip⟩ := hrow j (by simp)
    exact .skip hq hskip (ih fun j hj => hrow j (by simp [hj]))

theorem Ahead.of_element (h : o.Linked) (hroot : o.IsRoot root) (hp : o.parts[i]? = some p)
    (hrow : p.shape.isRow = true) (hc : p.children = pre ++ c :: post) (ha : o.Ahead root c is) :
    ∃ js, o.Ahead root i js ∧ (is = post ++ js ∨ p.shape.isLoop = true ∧ is = post ++ i :: js) := by
  obtain ⟨hchoice, -⟩ | ⟨pre', post', js, hc', -, ha, his⟩ := ha.of_child h hroot hp (by simp [hc])
  · exact absurd hrow (not_isRow_of_isChoice hchoice)
  · obtain ⟨hbefore, hafter⟩ := h.not_mem_before hp hc
    obtain ⟨-, -, rfl⟩ := (List.append_cons_inj_of_notMem hbefore hafter).1 (hc.symm.trans hc')
    exact ⟨js, ha, his⟩

theorem Leads.about (h : o.Linked) (hroot : o.IsRoot root) (hl : o.Leads s t)
    (ht : o.About root t w) : o.About root s w := by
  cases hl with
  | @choose i c p hp hchoice hc =>
    cases ht with
    | first ha hw =>
      obtain ⟨-, ha⟩ | ⟨_, _, _, _, hrow, _⟩ := ha.of_child h hroot hp hc
      · exact .first ha (.choose hp hchoice hc hw)
      · exact absurd hrow (not_isRow_of_isChoice hchoice)
  | @enter i c p pre post hp hrow hc hskip =>
    cases ht with
    | first ha hw =>
      obtain ⟨js, hi, rfl | ⟨hloop, rfl⟩⟩ := ha.of_element h hroot hp hrow hc
      · refine .first hi (.enter hp hrow ?_)
        rw [hc, List.append_assoc]
        exact Spells.skip_all hskip hw
      · refine .first hi (.again hp hloop ?_)
        rw [hc, List.append_assoc]
        exact Spells.skip_all hskip hw
  | through hp hrow hskip =>
    cases ht with
    | after ha hw => exact .first ha (.enter hp hrow (Spells.skip_all hskip hw))
  | leave hp hchoice hc =>
    cases ht with
    | after ha hw => exact .after (.choice hp hchoice hc ha) hw
  | @next i c d p pre post hp hrow hc =>
    have hd : p.children = (pre ++ [c]) ++ d :: post := by simp [hc]
    cases ht with
    | first ha hw =>
      obtain ⟨js, hi, rfl | ⟨hloop, rfl⟩⟩ := ha.of_element h hroot hp hrow hd
      · exact .after (.row hp hrow hc hi) hw
      · exact .after (.loop hp hloop hc hi) hw
  | @pass i c d p pre post hp hrow hc hskip =>
    have hd : p.children = (pre ++ [c]) ++ d :: post := by simp [hc]
    obtain ⟨q, hq, hskip⟩ := hskip
    cases ht with
    | after ha hw =>
      obtain ⟨js, hi, rfl | ⟨hloop, rfl⟩⟩ := ha.of_element h hroot hp hrow hd
      · exact .after (.row hp hrow hc hi) (.skip hq hskip hw)
      · exact .after (.loop hp hloop hc hi) (.skip hq hskip hw)
  | last hp hrow hc =>
    cases ht with
    | after ha hw => exact .after (.row hp hrow hc ha) hw
  | again hp hloop hc =>
    cases ht with
    | first ha hw => exact .after (.loop hp hloop hc ha) hw

/-- Something is asked about the tree below a root, where the part has something ahead of it. -/
def Under (o : Outline) (root i : Nat) : Prop := ∃ is, o.Ahead root i is

theorem Leads.under (h : o.Linked) (hroot : o.IsRoot root) (hl : o.Leads s t)
    (hs : o.Under root s.id) : o.Under root t.id := by
  have down {i c : Nat} {p : Part} (hp : o.parts[i]? = some p) (hrow : p.shape.isRow = true)
    {pre post : List Nat}
      (hc : p.children = pre ++ c :: post) (hi : o.Under root i) : o.Under root c := by
    obtain ⟨is, ha⟩ := hi
    exact ⟨_, .row hp hrow hc ha⟩
  have up {i c : Nat} {p : Part} (hp : o.parts[i]? = some p) (hc : c ∈ p.children)
    (hchild : o.Under root c) :
      o.Under root i := by
    obtain ⟨is, ha⟩ := hchild
    obtain ⟨-, ha⟩ | ⟨_, _, js, _, _, ha, _⟩ := ha.of_child h hroot hp hc
    · exact ⟨is, ha⟩
    · exact ⟨js, ha⟩
  cases hl with
  | choose hp hchoice hc =>
    obtain ⟨is, ha⟩ := hs
    exact ⟨is, .choice hp hchoice hc ha⟩
  | enter hp hrow hc => exact down hp hrow hc hs
  | through => exact hs
  | leave hp _ hc => exact up hp hc hs
  | @next i c d p pre post hp hrow hc | @pass i c d p pre post hp hrow hc =>
    exact down hp hrow (by simp [hc] : p.children = (pre ++ [c]) ++ d :: post)
      (up hp (by simp [hc, Step.id]) hs)
  | last hp _ hc | again hp _ hc => exact up hp (by simp [hc, Step.id]) hs

theorem exists_about (h : o.Linked) (hs : o.Shaped) (hroot : o.IsRoot root)
    (hp : o.parts[y]? = some p) (hleaf : p.shape.isLeaf = true) (hunder : o.Under root s.id)
    (hl : ReflTransGen o.Leads s (.first y)) : ∃ v, o.About root s (y :: v) := by
  have hyUnder {t : Step} (hl : ReflTransGen o.Leads s t) : o.Under root t.id := by
    induction hl with
    | refl => exact hunder
    | tail _ hst ih => exact hst.under h hroot ih
  obtain ⟨is, ha⟩ := hyUnder hl
  obtain ⟨v, hv⟩ : ∃ v, o.Spells is v :=
    exists_spells_row fun j hj =>
      h.exists_spells hs (ha.stacked.grounded h hroot j hj) (Nat.le_add_left _ _)
  have hyAbout : o.About root (.first y) (y :: v) := .first ha (.leaf hp hleaf hv)
  clear hunder hyUnder
  refine ⟨v, ?_⟩
  induction hl using ReflTransGen.head_induction_on with
  | refl => exact hyAbout
  | head hst _ ih => exact hst.about h hroot ih

end sound

section complete

/-- The questions that the start of a row comes down to lead to a leaf. -/
def Starts (o : Outline) (y : Nat) : List Nat → Prop
  | [] => False
  | i :: is => ReflTransGen o.Leads (.first i) (.first y) ∨ o.Skippable i ∧ Starts o y is

theorem Starts.follows (hp : o.parts[i]? = some p) (hrow : p.shape.isRow = true) {rest : List Nat}
    (hlast : ∀ {pre c}, p.children = pre ++ [c] → o.Starts y rest →
      ReflTransGen o.Leads (.after c) (.first y)) :
    ∀ {post pre : List Nat} {c : Nat}, p.children = pre ++ c :: post → o.Starts y (post ++ rest) →
      ReflTransGen o.Leads (.after c) (.first y) := by
  intro post
  induction post with
  | nil =>
    intro pre c hc hy
    exact hlast hc hy
  | cons d post ih =>
    intro pre c hc hy
    obtain hy | ⟨hskip, hy⟩ := hy
    · exact .head (.next hp hrow hc) hy
    · exact .head (.pass hp hrow hc hskip)
        (ih (by simp [hc] : p.children = (pre ++ [c]) ++ d :: post) hy)

theorem Ahead.follows (ha : o.Ahead root i is) (hy : o.Starts y is) :
    ReflTransGen o.Leads (.after i) (.first y) := by
  induction ha with
  | root => exact hy.elim
  | choice hp hchoice hc _ ih => exact .head (.leave hp hchoice hc) (ih hy)
  | row hp hrow hc _ ih =>
    exact Starts.follows hp hrow (fun hc hy => .head (.last hp hrow hc) (ih hy)) hc hy
  | loop hp hloop hc _ ih =>
    have hrow := Shape.isRow_of_isLoop hloop
    refine Starts.follows hp hrow (fun hc hy => ?_) hc hy
    obtain hy | ⟨-, hy⟩ := hy
    · exact .head (.again hp hloop hc) hy
    · exact .head (.last hp hrow hc) (ih hy)

/-- What starts a row starts an element that can be reached over what stands before it, or what
comes after it. -/
theorem Starts.split (hy : o.Starts y (row ++ is)) :
    (∃ pre c post, row = pre ++ c :: post ∧ (∀ j ∈ pre, o.Skippable j) ∧
      ReflTransGen o.Leads (.first c) (.first y)) ∨ (∀ j ∈ row, o.Skippable j) ∧ o.Starts y is := by
  induction row with
  | nil => exact .inr ⟨by simp, hy⟩
  | cons j row ih =>
    obtain hy | ⟨hskip, hy⟩ := hy
    · exact .inl ⟨[], j, row, rfl, by simp, hy⟩
    · obtain ⟨pre, c, post, rfl, hpre, hy⟩ | ⟨hrow, hy⟩ := ih hy
      · exact .inl ⟨j :: pre, c, post, rfl, by simpa [hskip] using hpre, hy⟩
      · exact .inr ⟨by simpa [hskip] using hrow, hy⟩

theorem Spells.starts (hs : o.Shaped) (hw : o.Spells row w) :
    w = y :: v → o.Stacked root row → o.Starts y row := by
  induction hw with
  | nil =>
    intro hw
    cases hw
  | leaf =>
    intro hw _
    obtain ⟨rfl, -⟩ := List.cons.inj hw
    exact .inl .refl
  | choose hp hchoice hc _ ih =>
    intro hw hstack
    obtain hy | ⟨hskip, -⟩ := ih hw ⟨.choice hp hchoice hc hstack.1, hstack.2⟩
    · exact .inl (.head (.choose hp hchoice hc) hy)
    · -- an alternative is not passed over
      obtain ⟨q, hq, hskip⟩ := hskip
      obtain ⟨q', hq', halternative⟩ := (hs.choice hp hchoice).2 _ hc
      obtain rfl := Option.some.inj (hq.symm.trans hq')
      simp [halternative, Shape.isSkippable] at hskip
  | enter hp hrow _ ih =>
    intro hw hstack
    obtain ⟨pre, c, post, hc, hpre, hy⟩ | ⟨hskip, hy⟩ :=
      (ih hw (hstack.1.enter hp hrow hstack.2)).split
    · exact .inl (.head (.enter hp hrow hc hpre) hy)
    · exact .inl (.head (.through hp hrow hskip) (hstack.1.follows hy))
  | skip hp hskip _ ih =>
    intro hw hstack
    exact .inr ⟨⟨_, hp, hskip⟩, ih hw hstack.2⟩
  | again hp hloop _ ih =>
    intro hw hstack
    obtain ⟨pre, c, post, hc, hpre, hy⟩ | ⟨-, hy⟩ :=
      (ih hw (hstack.1.again hp hloop hstack.2)).split
    · exact .inl (.head (.enter hp (Shape.isRow_of_isLoop hloop) hc hpre) hy)
    · exact hy

end complete

end GrammarWalk.Outline
