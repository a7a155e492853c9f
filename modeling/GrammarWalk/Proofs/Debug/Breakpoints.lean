import GrammarWalk.Debug.Breakpoint
import GrammarWalk.Proofs.Outcome
import Mathlib.Data.List.Induction
import Mathlib.Data.List.Nodup

/-! The states with a breakpoint are kept beside the breakpoints. Whatever a host asks for, they are
those that some breakpoint is bound to; and what a breakpoint is bound to depends on its request and
on whether it has been offered for validation. -/

namespace GrammarWalk

namespace Breakpoints

/-- What a host can ask of its breakpoints. -/
inductive Request
  | add (source : String) (line : Nat)
  | validate (id : Nat)
  | validateAll
  | reset
  | clear
deriving DecidableEq, Repr, Inhabited

def serve (net : Network) (grammar : Grammar) (bs : Breakpoints) : Request → Breakpoints
  | .add source line => (bs.add source line).2
  | .validate id => (bs.validate net grammar id).2
  | .validateAll => (bs.validateAll net grammar).2
  | .reset => bs.reset
  | .clear => bs.clear

/-- The breakpoints after some requests. -/
def after (net : Network) (grammar : Grammar) (history : List Request) : Breakpoints :=
  history.foldl (serve net grammar) {}

/-- The rule is declared on the line and has a start state. Line 0 is none: it stands for a rule
that was not found. -/
structure StartsOn (net : Network) (grammar : Grammar) (line rule : Nat) : Prop where
  line_pos : 0 < line
  declared : ∃ info, grammar.rules[rule]? = some info ∧ info.declared = line
  start : rule < net.ruleStarts.size

/-- The breakpoint is bound to the first rule that starts on its line, and shows where the text of
the rule begins. -/
structure Bound (net : Network) (grammar : Grammar) (b : Breakpoint) : Prop where
  validated : b.validated = true
  source : b.source = grammar.source
  rule : ∃ rule info start, StartsOn net grammar b.requestedLine rule ∧
    (∀ r < rule, ¬ StartsOn net grammar b.requestedLine r) ∧ grammar.rules[rule]? = some info ∧
    net.ruleStarts[rule]? = some start ∧ b.state = some start ∧ b.line = info.range.start.line

/-- The breakpoint is bound to nothing and shows the line it was asked for on. -/
structure Unbound (b : Breakpoint) : Prop where
  validated : b.validated = false
  state : b.state = none
  line : b.line = b.requestedLine

def Has (bs : Breakpoints) (id : Nat) : Prop := ∃ b ∈ bs.entries, b.id = id

/-- A breakpoint with this id was offered for validation when it was there, and there was no reset
after that. -/
def Offered (net : Network) (grammar : Grammar) (history : List Request) (id : Nat) : Prop :=
  ∃ before r rest, history = before ++ r :: rest ∧ (r = .validate id ∨ r = .validateAll) ∧
    (after net grammar before).Has id ∧ .reset ∉ rest

variable {net : Network} {grammar : Grammar} {bs : Breakpoints} {b b' : Breakpoint}
  {id line rule : Nat} {o o' : Nat → Prop}
  {history : List Request} {r : Request}

section bind

theorem declaredAt?_of_startsOn (h : StartsOn net grammar line rule) :
    ∃ first, grammar.declaredAt? line = some first ∧
    StartsOn net grammar line first ∧ ∀ r < first, ¬ StartsOn net grammar line r := by
  obtain ⟨info, hinfo, hline⟩ := h.declared
  rw [Grammar.declaredAt?, if_neg (Nat.ne_of_gt h.line_pos)]
  cases hfirst : grammar.rules.toList.findIdx? (·.declared == line) with
  | none =>
    rw [List.findIdx?_eq_none_iff] at hfirst
    have := hfirst info (Array.mem_toList_iff.2 (Array.mem_of_getElem? hinfo))
    simp [hline] at this
  | some first =>
    rw [List.findIdx?_eq_some_iff_getElem] at hfirst
    obtain ⟨hlt, hdeclared, hbefore⟩ := hfirst
    have hle : ∀ r info, grammar.rules[r]? = some info → info.declared = line → first ≤ r := by
      intro r info hr hline
      by_contra hgt
      obtain ⟨hr', rfl⟩ := Array.getElem?_eq_some_iff.1 hr
      exact hbefore r (Nat.not_le.1 hgt) (by simp [hline])
    refine ⟨first, rfl, ⟨h.line_pos,
      ⟨_, Array.getElem?_eq_getElem (by simpa using hlt), by simpa using hdeclared⟩, ?_⟩, ?_⟩
    · exact Nat.lt_of_le_of_lt (hle rule info hinfo hline) h.start
    · rintro r hr ⟨-, ⟨info, hinfo, hline⟩, -⟩
      exact absurd (hle r info hinfo hline) (Nat.not_le.2 hr)

theorem startsOn_of_declaredAt? {first : Nat} (h : grammar.declaredAt? line = some first)
    (hs : first < net.ruleStarts.size) : StartsOn net grammar line first := by
  unfold Grammar.declaredAt? at h
  split at h
  · cases h
  · rename_i hline
    rw [List.findIdx?_eq_some_iff_getElem] at h
    obtain ⟨hlt, hdeclared, -⟩ := h
    exact ⟨Nat.pos_of_ne_zero hline,
      ⟨_, Array.getElem?_eq_getElem (by simpa using hlt), by simpa using hdeclared⟩, hs⟩

theorem bind?_eq_some :
    bind? net grammar b = some b' ↔ b.validated = false ∧ b.source = grammar.source ∧
    ∃ rule start info, grammar.declaredAt? b.requestedLine = some rule ∧
    net.ruleStarts[rule]? = some start ∧
      grammar.rules[rule]? = some info ∧
      b' = { b with validated := true, state := some start, line := info.range.start.line } := by
  unfold bind?
  by_cases hold : b.validated = true ∨ b.source ≠ grammar.source
  · rw [if_pos (by simpa using hold)]
    simp only [Option.bind_eq_bind, Option.bind_none, reduceCtorEq, false_iff]
    rintro ⟨hfresh, hsource, -⟩
    simp [hfresh, hsource] at hold
  · rw [if_neg (by simpa using hold)]
    simp only [not_or, Bool.not_eq_true, ne_eq, Decidable.not_not] at hold
    simp [hold, Option.bind_eq_some_iff, @eq_comm _ b']

/-- A breakpoint can be bound just if it is not bound yet, is asked for in the grammar's file, and
some rule starts on its line. -/
theorem exists_bind?_iff :
    (∃ b', bind? net grammar b = some b') ↔
    b.validated = false ∧ b.source = grammar.source ∧
    ∃ rule, StartsOn net grammar b.requestedLine rule := by
  simp only [bind?_eq_some]
  constructor
  · rintro ⟨_, hfresh, hsource, rule, start, info, hdeclared, hstart, -⟩
    exact ⟨hfresh, hsource, rule,
      startsOn_of_declaredAt? hdeclared (Array.getElem?_eq_some_iff.1 hstart).1⟩
  · rintro ⟨hfresh, hsource, rule, hrule⟩
    obtain ⟨first, hdeclared, hfirst, -⟩ := declaredAt?_of_startsOn hrule
    obtain ⟨info, hinfo, -⟩ := hfirst.declared
    exact ⟨_, hfresh, hsource, first, _, info, hdeclared,
      Array.getElem?_eq_getElem hfirst.start, hinfo, rfl⟩

theorem bound_of_bind? (h : bind? net grammar b = some b') : Bound net grammar b' := by
  obtain ⟨-, hsource, rule, start, info, hdeclared, hstart, hinfo, rfl⟩ := bind?_eq_some.1 h
  have hrule := startsOn_of_declaredAt? hdeclared (Array.getElem?_eq_some_iff.1 hstart).1
  obtain ⟨first, hdeclared', hfirst, hleast⟩ := declaredAt?_of_startsOn hrule
  obtain rfl := Option.some.inj (hdeclared.symm.trans hdeclared')
  exact ⟨rfl, hsource, rule, info, start, hfirst, hleast, hinfo, hstart, rfl, rfl⟩

end bind

section ids

@[simp]
theorem ids_validate :
    (bs.validate net grammar id).2.entries.map (·.id) = bs.entries.map (·.id) := by
  unfold validate
  cases hbind : (bs.get? id).bind (bind? net grammar) with
  | none => rfl
  | some b' =>
    obtain ⟨b, hget, hbind⟩ := Option.bind_eq_some_iff.1 hbind
    obtain ⟨-, -, -, start, info, -, -, -, rfl⟩ := bind?_eq_some.1 hbind
    have hid : b.id = id := by simpa using List.find?_some hget
    simp only [List.map_map]
    refine List.map_congr_left fun x _ => ?_
    simp only [Function.comp_apply]
    split
    · rw [hid, ‹x.id = id›]
    · rfl

theorem has_iff : bs.Has id ↔ id ∈ bs.entries.map (·.id) := by simp [Has]

theorem has_validate {i : Nat} : (bs.validate net grammar id).2.Has i ↔ bs.Has i := by
  simp [has_iff]

theorem snd_validateAll : (bs.validateAll net grammar).2 =
    (bs.entries.map (·.id)).foldl (fun bs id => (bs.validate net grammar id).2) bs :=
  (List.foldl_hom Prod.snd fun _ _ => rfl).symm

@[simp]
theorem issued_validate : (bs.validate net grammar id).2.issued = bs.issued := by
  unfold validate
  split <;> rfl

theorem issued_validateAll : (bs.validateAll net grammar).2.issued = bs.issued := by
  rw [snd_validateAll]
  generalize bs.entries.map (·.id) = ids
  induction ids generalizing bs with
  | nil => rfl
  | cons id ids ih => exact ih.trans issued_validate

theorem issued_le_serve : bs.issued ≤ (bs.serve net grammar r).issued := by
  cases r with
  | add source line => exact Nat.le_succ _
  | validate id => exact Nat.le_of_eq issued_validate.symm
  | validateAll => exact Nat.le_of_eq issued_validateAll.symm
  | reset | clear => exact Nat.le_refl _

theorem issued_le_foldl_serve : bs.issued ≤ (history.foldl (serve net grammar) bs).issued := by
  induction history generalizing bs with
  | nil => exact Nat.le_refl _
  | cons r history ih => exact Nat.le_trans issued_le_serve ih

end ids

/-- The breakpoints and the states kept beside them agree, and those with an id in `o` are bound if
they can be. -/
structure Consistent (net : Network) (grammar : Grammar) (o : Nat → Prop) (bs : Breakpoints) :
    Prop where
  issued : ∀ b ∈ bs.entries, b.id ≤ bs.issued
  offered : ∀ id, o id → id ≤ bs.issued
  increasing : bs.entries.Pairwise (·.id < ·.id)
  states : ∀ s, s ∈ bs.states ↔ ∃ b ∈ bs.entries, b.validated = true ∧ b.state = some s
  bound : ∀ b ∈ bs.entries, b.validated = true → Bound net grammar b ∧ o b.id
  unbound : ∀ b ∈ bs.entries, b.validated = false →
    Unbound b ∧ (o b.id → bind? net grammar b = none)

namespace Consistent

variable (h : Consistent net grammar o bs)
include h

theorem eq_of_id (hb : b ∈ bs.entries) (hb' : b' ∈ bs.entries) (hid : b.id = b'.id) : b = b' := by
  have hnodup : (bs.entries.map (·.id)).Nodup := List.pairwise_map.2 (h.increasing.imp Nat.ne_of_lt)
  exact List.inj_on_of_nodup_map hnodup hb hb' hid

theorem get?_eq_some_iff : bs.get? id = some b ↔ b ∈ bs.entries ∧ b.id = id := by
  constructor
  · intro hget
    exact ⟨List.mem_of_find?_eq_some hget, by simpa using List.find?_some hget⟩
  · rintro ⟨hb, rfl⟩
    cases hget : bs.get? b.id with
    | none => simpa using List.find?_eq_none.1 hget b hb
    | some b' =>
      rw [h.eq_of_id (List.mem_of_find?_eq_some hget) hb (by simpa using List.find?_some hget)]

theorem congr (ho : ∀ id, o id ↔ o' id) : Consistent net grammar o' bs := by
  have heq : o = o' := funext fun id => propext (ho id)
  rwa [← heq]

theorem add {source : String} : Consistent net grammar o (bs.add source line).2 where
  issued b hb := by
    obtain hb | hb := List.mem_append.1 hb
    · exact Nat.le_succ_of_le (h.issued b hb)
    · rw [List.mem_singleton.1 hb]
      exact Nat.le_refl _
  offered id hid := Nat.le_succ_of_le (h.offered id hid)
  increasing :=
    List.pairwise_append.2 ⟨h.increasing, List.pairwise_singleton _ _, fun b hb b' hb' => by
    rw [List.mem_singleton.1 hb']
    exact Nat.lt_succ_of_le (h.issued b hb)⟩
  states s := by
    rw [show (bs.add source line).2.states = bs.states from rfl, h.states]
    simp [Breakpoints.add, or_and_right, exists_or]
  bound b hb hv := by
    obtain hb | hb := List.mem_append.1 hb
    · exact h.bound b hb hv
    · rw [List.mem_singleton.1 hb] at hv
      cases hv
  unbound b hb hv := by
    obtain hb | hb := List.mem_append.1 hb
    · exact h.unbound b hb hv
    · rw [List.mem_singleton.1 hb]
      refine ⟨⟨rfl, rfl, rfl⟩, fun hoffered => ?_⟩
      exact absurd (h.offered _ hoffered) (Nat.not_succ_le_self _)

theorem mem_replaced (hb : b ∈ bs.entries) {x : Breakpoint} :
    x ∈ (bs.entries.map fun old => if old.id = b.id then b' else old) ↔
    x = b' ∨ x ∈ bs.entries ∧ x ≠ b := by
  simp only [List.mem_map]
  constructor
  · rintro ⟨old, hold, rfl⟩
    split
    · exact .inl rfl
    · rename_i hne
      exact .inr ⟨hold, fun heq => hne (congrArg _ heq)⟩
  · rintro (rfl | ⟨hx, hne⟩)
    · exact ⟨b, hb, if_pos rfl⟩
    · exact ⟨x, hx, if_neg fun hid => hne (h.eq_of_id hx hb hid)⟩

theorem offered_validate {i : Nat} (hi : o i ∨ i = id ∧ bs.Has i) : i ≤ bs.issued := by
  obtain hi | ⟨rfl, b, hb, rfl⟩ := hi
  · exact h.offered i hi
  · exact h.issued b hb

theorem of_bind?_eq_none (hbind : (bs.get? id).bind (bind? net grammar) = none) :
    Consistent net grammar (fun i => o i ∨ i = id ∧ bs.Has i) bs where
  issued := h.issued
  offered _ hi := h.offered_validate hi
  increasing := h.increasing
  states := h.states
  bound b hb hv := (h.bound b hb hv).imp_right .inl
  unbound b hb hv := by
    refine ⟨(h.unbound b hb hv).1, ?_⟩
    rintro (hi | ⟨hi, -⟩)
    · exact (h.unbound b hb hv).2 hi
    · simpa only [h.get?_eq_some_iff.2 ⟨hb, hi⟩, Option.bind_some] using hbind

theorem of_bind?_eq_some (hb : b ∈ bs.entries) (hbind : bind? net grammar b = some b') :
    Consistent net grammar (fun i => o i ∨ i = b.id ∧ bs.Has i) { bs with
      entries := bs.entries.map fun old => if old.id = b.id then b' else old
      states := bs.states.insert (b'.state.getD 0) } := by
  obtain ⟨hfresh, -, -, start, info, -, -, -, hb'⟩ := bind?_eq_some.1 hbind
  have hid : b'.id = b.id := by rw [hb']
  have hstate : b'.state = some start := by rw [hb']
  have hbound := bound_of_bind? hbind
  exact {
    issued := fun x hx => by
      obtain rfl | ⟨hx, -⟩ := (h.mem_replaced hb).1 hx
      · exact hid ▸ h.issued b hb
      · exact h.issued x hx
    offered := fun _ hi => h.offered_validate hi
    increasing := by
      refine List.pairwise_map.2 (h.increasing.imp fun {x y} hxy => ?_)
      have hkept : ∀ x : Breakpoint, (if x.id = b.id then b' else x).id = x.id := by
        intro x
        split
        · rename_i heq
          rw [hid, heq]
        · rfl
      rwa [hkept, hkept]
    states := fun s => by
      simp only [hstate, Option.getD_some, List.mem_insert_iff, h.states, h.mem_replaced hb]
      constructor
      · rintro (rfl | ⟨x, hx, hv, hs⟩)
        · exact ⟨b', .inl rfl, hbound.validated, hstate⟩
        · refine ⟨x, .inr ⟨hx, ?_⟩, hv, hs⟩
          rintro rfl
          exact absurd hv (by simp [hfresh])
      · rintro ⟨x, rfl | ⟨hx, -⟩, hv, hs⟩
        · exact .inl (Option.some.inj (hs.symm.trans hstate))
        · exact .inr ⟨x, hx, hv, hs⟩
    bound := fun x hx hv => by
      obtain rfl | ⟨hx, -⟩ := (h.mem_replaced hb).1 hx
      · exact ⟨hbound, .inr ⟨hid, b, hb, hid.symm⟩⟩
      · exact (h.bound x hx hv).imp_right .inl
    unbound := fun x hx hv => by
      obtain rfl | ⟨hx, hne⟩ := (h.mem_replaced hb).1 hx
      · exact absurd hbound.validated (by simp [hv])
      · refine ⟨(h.unbound x hx hv).1, ?_⟩
        rintro (hi | ⟨hi, -⟩)
        · exact (h.unbound x hx hv).2 hi
        · exact absurd (h.eq_of_id hx hb hi) hne }

theorem validate :
    Consistent net grammar (fun i => o i ∨ i = id ∧ bs.Has i) (bs.validate net grammar id).2 := by
  unfold Breakpoints.validate
  cases hbind : (bs.get? id).bind (bind? net grammar) with
  | none => exact h.of_bind?_eq_none hbind
  | some b' =>
    obtain ⟨b, hget, hbind'⟩ := Option.bind_eq_some_iff.1 hbind
    obtain ⟨hb, rfl⟩ := h.get?_eq_some_iff.1 hget
    exact h.of_bind?_eq_some hb hbind'

theorem foldl_validate (ids : List Nat) : Consistent net grammar (fun i => o i ∨ i ∈ ids ∧ bs.Has i)
    (ids.foldl (fun bs id => (bs.validate net grammar id).2) bs) := by
  induction ids generalizing bs o with
  | nil => exact h.congr (by simp)
  | cons id ids ih =>
    refine (ih h.validate).congr fun i => ?_
    rw [has_validate, List.mem_cons]
    tauto

theorem validateAll :
    Consistent net grammar (fun i => o i ∨ bs.Has i) (bs.validateAll net grammar).2 := by
  rw [snd_validateAll]
  refine (h.foldl_validate _).congr fun i => ?_
  simp [Has]

theorem reset : Consistent net grammar (fun _ => False) bs.reset where
  issued b hb := by
    obtain ⟨old, hold, rfl⟩ := List.mem_map.1 hb
    exact h.issued old hold
  offered _ := False.elim
  increasing := List.pairwise_map.2 h.increasing
  states s := by simp [Breakpoints.reset]
  bound b hb hv := by
    obtain ⟨old, -, rfl⟩ := List.mem_map.1 hb
    cases hv
  unbound b hb _ := by
    obtain ⟨old, -, rfl⟩ := List.mem_map.1 hb
    exact ⟨⟨rfl, rfl, rfl⟩, False.elim⟩

theorem clear : Consistent net grammar o bs.clear where
  issued := nofun
  offered := h.offered
  increasing := .nil
  states s := by simp [Breakpoints.clear]
  bound := nofun
  unbound := nofun

theorem serve (r : Request) :
    Consistent net grammar
    (fun i => (r = .validate i ∨ r = .validateAll) ∧ bs.Has i ∨ o i ∧ r ≠ .reset)
    (bs.serve net grammar r) := by
  cases r with
  | add source line => exact h.add.congr (by simp)
  | validate id => exact h.validate.congr fun i => by simp [or_comm, eq_comm]
  | validateAll => exact h.validateAll.congr fun i => by simp [or_comm]
  | reset => exact h.reset.congr (by simp)
  | clear => exact h.clear.congr (by simp)

end Consistent

theorem after_concat :
    after net grammar (history ++ [r]) = (after net grammar history).serve net grammar r := by
  simp [after]

theorem offered_concat : Offered net grammar (history ++ [r]) id ↔
    (r = .validate id ∨ r = .validateAll) ∧ (after net grammar history).Has id ∨
      Offered net grammar history id ∧ r ≠ .reset := by
  constructor
  · rintro ⟨before, r', rest, heq, hr', hhas, hrest⟩
    obtain ⟨rfl, rfl, rfl⟩ | ⟨rest, rfl, rfl⟩ := append_singleton_eq_append_cons.1 heq
    · exact .inl ⟨hr', hhas⟩
    · simp only [List.mem_append, List.mem_singleton, not_or] at hrest
      exact .inr ⟨⟨before, r', rest, rfl, hr', hhas, hrest.1⟩, Ne.symm hrest.2⟩
  · rintro (⟨hr, hhas⟩ | ⟨⟨before, r', rest, rfl, hr', hhas, hrest⟩, hr⟩)
    · exact ⟨history, r, [], rfl, hr, hhas, List.not_mem_nil⟩
    · refine ⟨before, r', rest ++ [r], by simp, hr', hhas, ?_⟩
      simpa [hrest] using Ne.symm hr

theorem consistent_after :
    Consistent net grammar (Offered net grammar history) (after net grammar history) := by
  induction history using List.reverseRecOn with
  | nil =>
    refine ⟨nofun, ?_, .nil, by simp [after], nofun, nofun⟩
    rintro id ⟨before, r, rest, heq, -⟩
    simp at heq
  | append_singleton history r ih =>
    rw [after_concat]
    exact (ih.serve r).congr fun id => offered_concat.symm

/-- After any requests, a state is hit just if a breakpoint is bound to it. A breakpoint that was
offered for validation is bound just if a rule of the network starts on its line; the others are not
bound. Ids are issued in increasing order, and none twice. -/
theorem bindings_consistent (net : Network) (grammar : Grammar) (history : List Request) :
    let bs := after net grammar history
    (∀ before source line mid source' line' rest,
      history = before ++ .add source line :: (mid ++ .add source' line' :: rest) →
      ((after net grammar before).add source line).1.id <
        ((after net grammar (before ++ .add source line :: mid)).add source' line').1.id) ∧
    bs.entries.Pairwise (·.id < ·.id) ∧
    (∀ s, bs.isHit s = true ↔ ∃ b ∈ bs.entries, b.validated = true ∧ b.state = some s) ∧
    ∀ b ∈ bs.entries,
      (b.validated = true ↔ Offered net grammar history b.id ∧ b.source = grammar.source ∧
        ∃ rule, StartsOn net grammar b.requestedLine rule) ∧
      (b.validated = true → Bound net grammar b) ∧ (b.validated = false → Unbound b) := by
  have h : Consistent net grammar (Offered net grammar history) (after net grammar history) :=
    consistent_after
  refine ⟨?_, h.increasing, fun s => ?_, fun b hb => ⟨⟨fun hv => ?_, ?_⟩,
    fun hv => (h.bound b hb hv).1, fun hv => (h.unbound b hb hv).1⟩⟩
  · intro before source line mid source' line' rest _
    have hle : ((after net grammar before).serve net grammar (.add source line)).issued ≤
        (after net grammar (before ++ .add source line :: mid)).issued := by
      rw [after, after, List.foldl_append]
      exact issued_le_foldl_serve
    exact Nat.lt_succ_of_le hle
  · rw [isHit, List.contains_iff_mem, h.states]
  · obtain ⟨hbound, hoffered⟩ := h.bound b hb hv
    obtain ⟨rule, -, -, hrule, -⟩ := hbound.rule
    exact ⟨hoffered, hbound.source, rule, hrule⟩
  · rintro ⟨hoffered, hsource, hrule⟩
    by_contra hv
    rw [Bool.not_eq_true] at hv
    obtain ⟨b', hbind⟩ := exists_bind?_iff.2 ⟨hv, hsource, hrule⟩
    exact absurd ((h.unbound b hb hv).2 hoffered) (by simp [hbind])

/-- Two rules on lines 2 and 5; the text of the second starts with a comment on line 4. -/
def twoRules : Grammar where
  source := "g"
  rules := #[{ name := "a", declared := 2, range := ⟨⟨2, 0⟩, ⟨2, 6⟩⟩ },
    { name := "b", declared := 5, range := ⟨⟨4, 0⟩, ⟨5, 6⟩⟩ }]

def twoStarts : Network := { kind := .parser, maxToken := 1, ruleStarts := #[0, 2] }

/-- Two breakpoints are asked for on one rule, one of them again after all were removed. -/
def askedAgain : List Request :=
  [.add "g" 5, .add "g" 3, .validateAll, .clear, .add "g" 5, .add "g" 5, .reset, .validate 3]

theorem bindings_consistent_askedAgain :
    let bs := after twoStarts twoRules askedAgain
    ((after twoStarts twoRules []).add "g" 5).1.id <
      ((after twoStarts twoRules (askedAgain.take 4)).add "g" 5).1.id ∧
    bs.isHit 2 = true ∧ ∃ b ∈ bs.entries, b.validated = true ∧ Bound twoStarts twoRules b ∧
    b.line = 4 := by
  obtain ⟨hissued, -, hhit, hentries⟩ := bindings_consistent twoStarts twoRules askedAgain
  have hb : ({ id := 3, source := "g", line := 4, requestedLine := 5, validated := true,
               state := some 2 } : Breakpoint) ∈
      (after twoStarts twoRules askedAgain).entries := by decide +kernel
  have hstarts : StartsOn twoStarts twoRules 5 1 := ⟨by decide, ⟨_, rfl, rfl⟩, by decide⟩
  have hoffered : Offered twoStarts twoRules askedAgain 3 :=
    ⟨askedAgain.take 7, .validate 3, [], rfl, .inl rfl, by rw [has_iff]; decide +kernel,
      List.not_mem_nil⟩
  have hv := (hentries _ hb).1.2 ⟨hoffered, rfl, 1, hstarts⟩
  exact ⟨hissued [] "g" 5 _ "g" 5 _ rfl, (hhit 2).2 ⟨_, hb, hv, rfl⟩, _, hb, hv,
    (hentries _ hb).2.1 hv, rfl⟩

end Breakpoints

end GrammarWalk
