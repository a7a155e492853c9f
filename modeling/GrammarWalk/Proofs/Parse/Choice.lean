import GrammarWalk.Proofs.Parse.Closure
import GrammarWalk.Proofs.Tokens
import Mathlib.Order.Bounds.Basic

/-! The choice at a decision is exact: when some alternatives can take all the tokens ahead, then
the least of them is chosen, however early the search settles. -/

namespace GrammarWalk.Choice

open Relation

variable {s : Setting} {t t' u x : Trail} {st : State} {e : Edge} {symbol : Int}
  {symbols : List Int}
  {trails next : List Trail} {decision : Nat}

section step

/-- The trail, sent over a symbol, before it moves on. After the outermost rule only the end of
input fits. -/
def Sent (s : Setting) (symbol : Int) (t x : Trail) : Prop :=
  Completes s t ∧ symbol = Symbol.eof ∧ x = t ∨ Reads s symbol t x

def Waiting (s : Setting) (trails : List Trail) : Prop := ∀ t ∈ trails, t.InRange s ∧ Waits s t

theorem Completes.not_reads (h : Completes s t) : ¬ Reads s symbol t x := by
  obtain ⟨st, hst, hstop, -⟩ := h
  rintro ⟨st', e, hst', hns, -⟩
  obtain rfl := Option.some.inj (hst.symm.trans hst')
  simp [hstop] at hns

theorem Completes.not_moves (h : Completes s t) : ¬ Moves s t x := by
  obtain ⟨st, hst, hstop, hstack, houter⟩ := h
  simp [moves_iff_of_stop hst hstop, hstack, houter]

theorem completes_iff (hst : s.net.states[t.state]? = some st) :
    Completes s t ↔ t.isComplete st = true := by
  constructor
  · rintro ⟨st', hst', hstop, hstack, houter⟩
    obtain rfl := Option.some.inj (hst.symm.trans hst')
    simp [Trail.isComplete, hstop, hstack, houter]
  · intro h
    simp only [Trail.isComplete, Bool.and_eq_true, List.isEmpty_iff, beq_iff_eq] at h
    exact ⟨st, hst, h.1.1, h.1.2, h.2⟩

theorem returns_send (h : s.InRange) (ht : t.InRange s) (hw : Waits s t) (f : Front) :
    Returns (send s symbol f t) (Closed s (Sent s symbol t) f) := by
  unfold send
  refine (Network.returns_state ht.state).bind fun st hst => ?_
  split
  · rename_i hc
    have hc := (completes_iff hst).2 hc
    have hsent (x : Trail) : Sent s symbol t x ↔ symbol = Symbol.eof ∧ x = t := by
      simp [Sent, hc, hc.not_reads]
    split
    · rename_i hs
      obtain ⟨rfl, hseen⟩ := hs
      have hclosed : Closed s (· = t) f { f.add t with seen := f.seen.insert t.stack.length t } :=
        closed_visit (by simpa [Front.Seen] using hseen) (.none fun x => hc.not_moves)
          (.inl ⟨.inl hc, rfl⟩)
      exact returns_pure (hclosed.congr fun x => by simp [hsent])
    · rename_i hs
      refine returns_pure ?_
      by_cases hsymbol : symbol = Symbol.eof
      · subst hsymbol
        have hseen : f.Seen t := by simpa [Front.Seen] using hs
        exact (Fronts.Closed.seen (k := fronts) hseen).congr fun x => by simp [hsent]
      · exact .none fun x hx => hsymbol ((hsent x).1 hx).1
  · rename_i hc
    have hc : ¬ Completes s t := fun h => hc ((completes_iff hst).1 h)
    obtain ⟨st', hst', hns, -⟩ := hw.resolve_left hc
    obtain rfl := Option.some.inj (hst.symm.trans hst')
    refine (returns_edgesOf ht hst).bind fun edges hedges => ?_
    refine (Fronts.returns_closed_foldlM
        (fun e x => e.accepts symbol Symbol.minToken s.net.maxToken = true ∧
        x = { t with state := e.target, only := none }) f fun e he f' _ => ?_).imp fun f' hf' =>
      hf'.congr fun x => ?_
    · split
      · rename_i hacc
        have hgo := ht.goto (((hedges e).1 he).within h hst).1
        exact (returns_close h hgo f').imp fun f'' hf'' => hf''.congr fun x => by simp [hacc]
      · rename_i hacc
        exact returns_pure (.none (by simp [hacc]))
    · constructor
      · rintro ⟨e, he, hacc, rfl⟩
        exact .inr ⟨st, e, hst, hns, (hedges e).1 he, hacc, rfl⟩
      · rintro (⟨h, -⟩ | ⟨st', e, hst', -, he, hacc, rfl⟩)
        · exact (hc h).elim
        · obtain rfl := Option.some.inj (hst.symm.trans hst')
          exact ⟨e, (hedges e).2 he, hacc, rfl⟩

theorem Front.not_seen_empty (x : Trail) : ¬ ({} : Front).Seen x := Visited.not_contains_empty _ x

theorem mem_of_closed {roots : Trail → Prop} {f : Front} (h : Closed s roots {} f) :
    x ∈ f.trails ↔ (∃ r, roots r ∧ ReflTransGen (Moves s) r x) ∧ Waits s x :=
  h.mem_listed rfl Front.not_seen_empty

theorem returns_step (symbol : Int) (h : s.InRange) (hw : Waiting s trails) :
    Returns (step s trails symbol) fun next =>
    ∀ x, x ∈ next ↔ ∃ t ∈ trails, ∃ y, Sent s symbol t y ∧ ReflTransGen (Moves s) y x ∧
    Waits s x := by
  have hloop : Returns (trails.foldlM (send s symbol) {})
      (Closed s (fun x => ∃ t ∈ trails, Sent s symbol t x) {}) :=
    Fronts.returns_closed_foldlM (Sent s symbol) {} fun t ht f _ =>
      returns_send h (hw t ht).1 (hw t ht).2 f
  refine hloop.bind fun f hf => returns_pure fun x => (mem_of_closed hf).trans ?_
  constructor
  · rintro ⟨⟨y, ⟨t, ht, hty⟩, hyx⟩, hx⟩
    exact ⟨t, ht, y, hty, hyx, hx⟩
  · rintro ⟨t, ht, y, hty, hyx, hx⟩
    exact ⟨⟨y, ⟨t, ht, hty⟩, hyx⟩, hx⟩

theorem origin_inRange {i : Nat} (hst : s.net.states[decision]? = some st)
    (hns : st.isRuleStop = false) (hi : i < st.edges.length) : (origin s decision i).InRange s := by
  refine ⟨Network.lt_size hst, by simp [origin], by simp [origin], Nat.le_refl _, fun j hj => ?_⟩
  obtain rfl := Option.some.inj hj
  exact ⟨st, hst, hns, hi⟩

theorem returns_start (h : s.InRange) (hst : s.net.states[decision]? = some st)
    (hns : st.isRuleStop = false) :
    Returns (start s decision) fun trails => ∀ x, x ∈ trails ↔
      ∃ i < st.edges.length, ReflTransGen (Moves s) (origin s decision i) x ∧ Waits s x := by
  unfold start
  refine (returns_ofLookup (P := (· = st)) hst rfl).bind fun st' hst' => ?_
  subst hst'
  refine (Fronts.returns_closed_foldlM (k := fronts) (fun i x => x = origin s decision i) {}
    fun i hi f _ => ?_).bind fun f hf => returns_pure fun x => (mem_of_closed (s := s) hf).trans ?_
  · exact returns_close h (origin_inRange hst hns (List.mem_range.1 hi)) f
  · constructor
    · rintro ⟨⟨y, ⟨i, hi, rfl⟩, hyx⟩, hx⟩
      exact ⟨i, List.mem_range.1 hi, hyx, hx⟩
    · rintro ⟨i, hi, hyx, hx⟩
      exact ⟨⟨_, ⟨i, List.mem_range.2 hi, rfl⟩, hyx⟩, hx⟩

end step

section alternative

def Trail.as (t : Trail) (a : Nat) : Trail := { t with alternative := a }

theorem Moves.as (hm : Moves s t t') (a : Nat) : Moves s (t.as a) (t'.as a) := by
  cases hm with
  | back hst hstop hstack => exact .back hst hstop hstack
  | out hst hstop hstack houter hcaller => exact .out hst hstop hstack houter hcaller
  | push hst hns he htail hcalls => exact .push (t := t.as a) hst hns he htail hcalls
  | tail hst hns he htail => exact .tail (t := t.as a) hst hns he htail
  | precedence hst hns he hlevel => exact .precedence (t := t.as a) hst hns he hlevel
  | silent hst hns he hsilent hcall hlevel =>
    exact .silent (t := t.as a) hst hns he hsilent hcall hlevel

theorem reaches_as (h : ReflTransGen (Moves s) t x) (a : Nat) :
    ReflTransGen (Moves s) (t.as a) (x.as a) := by
  induction h with
  | refl => exact .refl
  | tail _ hm ih => exact ih.tail (hm.as a)

theorem Waits.as (h : Waits s t) (a : Nat) : Waits s (t.as a) := h

theorem Reads.as (h : Reads s symbol t x) (a : Nat) : Reads s symbol (t.as a) (x.as a) := by
  obtain ⟨st, e, hst, hns, he, hacc, rfl⟩ := h
  exact ⟨st, e, hst, hns, he, hacc, rfl⟩

theorem Fits.as (a : Nat) :
    ∀ {symbols : List Int} {t : Trail}, Fits s symbols t → Fits s symbols (t.as a) := by
  intro symbols
  induction symbols with
  | nil =>
    rintro t (h | ⟨t', hr, x, htx, hx⟩)
    · exact .inl h
    · exact .inr ⟨_, hr.as a, _, reaches_as htx a, hx.as a⟩
  | cons symbol symbols ih =>
    rintro t ⟨t', hr, x, htx, hx⟩
    exact ⟨_, hr.as a, _, reaches_as htx a, ih hx⟩

theorem Fits.of_outlook (h : Fits s symbols t) (ht : t.only = none) (hu : u.only = none)
    (hout : u.outlook = t.outlook) : Fits s symbols u := by
  have hut : u = t.as u.alternative := by
    obtain ⟨⟩ := t
    obtain ⟨⟩ := u
    simp_all [Trail.outlook, Trail.as]
  exact hut ▸ h.as u.alternative

theorem reaches_alternative (h : ReflTransGen (Moves s) t x) : x.alternative = t.alternative := by
  induction h with
  | refl => rfl
  | tail _ hm ih => exact hm.alternative_eq.trans ih

theorem Reads.alternative_eq (h : Reads s symbol t x) : x.alternative = t.alternative := by
  obtain ⟨st, e, -, -, -, -, rfl⟩ := h
  rfl

theorem Reads.waits (h : Reads s symbol t x) : Waits s t := by
  obtain ⟨st, e, hst, hns, he, hacc, -⟩ := h
  exact .inr ⟨st, hst, hns, e, he, Edge.isSilent_of_accepts hacc⟩

theorem Fits.waits (h : Fits s symbols t) : Waits s t := by
  cases symbols with
  | nil =>
    rcases h with h | ⟨t', hr, -⟩
    · exact .inl h
    · exact hr.waits
  | cons symbol symbols =>
    obtain ⟨t', hr, -⟩ := h
    exact hr.waits

end alternative

section settle

def alternatives (trails : List Trail) : Set Nat := {a | ∃ t ∈ trails, t.alternative = a}

/-- The alternatives of the trails that can take all the symbols. -/
def fitting (s : Setting) (symbols : List Int) (trails : List Trail) : Set Nat :=
  {a | ∃ t ∈ trails, t.alternative = a ∧ Fits s symbols t}

theorem least_isLeast (h : trails ≠ []) : IsLeast (alternatives trails) (least trails) := by
  have hsome : ((trails.map (·.alternative)).min?).isSome := by simpa [List.isSome_min?_iff] using h
  obtain ⟨a, ha⟩ := Option.isSome_iff_exists.1 hsome
  obtain ⟨hmem, hle⟩ := List.min?_eq_some_iff.1 ha
  rw [least, ha]
  refine ⟨by simpa [alternatives] using hmem, ?_⟩
  rintro _ ⟨t, ht, rfl⟩
  exact hle _ (List.mem_map_of_mem ht)

theorem contains_outlooks {a : Nat} :
    (outlooks trails a).contains t.stack.length t.outlook = true ↔
      ∃ u ∈ trails, u.alternative = a ∧ u.outlook = t.outlook := by
  have key (v : Visited Outlook) :
      (trails.foldl (fun v t =>
        if t.alternative = a ∧ !v.contains t.stack.length t.outlook then
          v.insert t.stack.length t.outlook
        else v) v).contains t.stack.length t.outlook = true ↔
      v.contains t.stack.length t.outlook = true ∨ ∃ u ∈ trails, u.alternative = a ∧
      u.outlook = t.outlook := by
    induction trails generalizing v with
    | nil => simp
    | cons u trails ih =>
      have hlength (h : t.outlook = u.outlook) : u.stack.length = t.stack.length :=
        congrArg (·.stack.length) h.symm
      rw [List.foldl_cons, ih, List.exists_mem_cons_iff, ← or_assoc]
      refine or_congr_left ?_
      split
      · rename_i hu
        rw [Visited.contains_insert]
        constructor
        · rintro (⟨-, h⟩ | h)
          · exact .inr ⟨hu.1, h.symm⟩
          · exact .inl h
        · rintro (h | ⟨-, h⟩)
          · exact .inr h
          · exact .inl ⟨hlength h.symm, h.symm⟩
      · rename_i hu
        constructor
        · exact .inl
        · rintro (h | ⟨ha, h⟩)
          · exact h
          · rw [← h, ← hlength h.symm]
            simpa [ha] using hu
  simpa [outlooks, Visited.contains, Visited.bucket] using key {}

theorem covers_iff {a b : Nat} : covers trails a b = true ↔
    ∀ t ∈ trails, t.alternative = a → ∃ u ∈ trails, u.alternative = b ∧ u.outlook = t.outlook := by
  simp only [covers, List.all_eq_true, Bool.or_eq_true, bne_iff_ne, contains_outlooks]
  exact forall₂_congr fun t _ => imp_iff_not_or.symm

theorem settled?_eq_some {a : Nat} (h : settled? trails = some a) :
    IsLeast (alternatives trails) a ∧
    ∀ t ∈ trails, ∀ b ∈ alternatives trails, ∃ u ∈ trails, u.alternative = b ∧
    u.outlook = t.outlook := by
  unfold settled? at h
  split at h
  · exact nomatch h
  · rename_i t₀ rest
    simp only [Option.ite_none_right_eq_some, List.all_eq_true, List.mem_filter, List.mem_eraseDups,
      Bool.and_eq_true, covers_iff] at h
    obtain ⟨hcover, ha⟩ := h
    obtain rfl := Option.some.inj ha
    refine ⟨least_isLeast nofun, ?_⟩
    -- every outlook is one of the first trail's alternative, and so one of all alternatives
    have hall (b : Nat) (hb : b ∈ alternatives (t₀ :: rest)) :
        (∀ t ∈ t₀ :: rest, t.alternative = b →
          ∃ u ∈ t₀ :: rest, u.alternative = t₀.alternative ∧ u.outlook = t.outlook) ∧
        ∀ t ∈ t₀ :: rest, t.alternative = t₀.alternative →
          ∃ u ∈ t₀ :: rest, u.alternative = b ∧ u.outlook = t.outlook := by
      by_cases hb₀ : b = t₀.alternative
      · subst hb₀
        exact ⟨fun t ht hta => ⟨t, ht, hta, rfl⟩, fun t ht hta => ⟨t, ht, hta, rfl⟩⟩
      · obtain ⟨t, ht, rfl⟩ := hb
        exact hcover t.alternative ⟨List.mem_map_of_mem ht, by simpa using hb₀⟩
    intro t ht b hb
    obtain ⟨v, hv, hva, hvt⟩ := (hall t.alternative ⟨t, ht, rfl⟩).1 t ht rfl
    obtain ⟨u, hu, hub, huv⟩ := (hall b hb).2 v hv hva
    exact ⟨u, hu, hub, huv.trans hvt⟩

theorem fitting_eq_of_settled {a : Nat} (hleft : ∀ t ∈ trails, t.only = none)
    (h : settled? trails = some a) (hne : (fitting s symbols trails).Nonempty) :
    IsLeast (fitting s symbols trails) a := by
  obtain ⟨hleast, hsame⟩ := settled?_eq_some h
  have heq : fitting s symbols trails = alternatives trails := by
    refine Set.Subset.antisymm (fun b ⟨t, ht, htb, _⟩ => ⟨t, ht, htb⟩) fun b hb => ?_
    obtain ⟨_, t, ht, -, hfits⟩ := hne
    obtain ⟨u, hu, hub, hout⟩ := hsame t ht b hb
    exact ⟨u, hu, hub, hfits.of_outlook (hleft t ht) (hleft u hu) hout⟩
  exact heq ▸ hleast

end settle

section choose

/-- The choice is the least alternative that fits, if any fits, and in any case one of those that
there are. -/
structure Chooses (among fit : Set Nat) (choice : Except Failure Nat) : Prop where
  least : fit.Nonempty → ∃ a, IsLeast fit a ∧ choice = .ok a
  among : ∀ a, choice = .ok a → a ∈ among

theorem Chooses.failure {among fit : Set Nat} {failure : Failure} (h : ¬ fit.Nonempty) :
    Chooses among fit (.error failure) := ⟨fun hne => (h hne).elim, fun _ ha => nomatch ha⟩

theorem Chooses.mono {among among' fit : Set Nat} {choice : Except Failure Nat}
    (h : Chooses among fit choice) (hsub : among ⊆ among') : Chooses among' fit choice :=
  ⟨h.least, fun a ha => hsub (h.among a ha)⟩

/-- Trails as a search has them between two steps: in range, waiting, and past the decision. -/
structure Running (s : Setting) (trails : List Trail) : Prop where
  waiting : Waiting s trails
  only : ∀ t ∈ trails, t.only = none

theorem reaches_inRange (h : s.InRange) (htx : ReflTransGen (Moves s) t x) (ht : t.InRange s) :
    x.InRange s := by
  induction htx with
  | refl => exact ht
  | tail _ hm ih => exact hm.inRange h ih

theorem reaches_only (htx : ReflTransGen (Moves s) t x) (ht : t.only = none) : x.only = none := by
  induction htx with
  | refl => exact ht
  | tail _ hm ih => exact hm.only_eq ih

/-- One step over a symbol that is not the end keeps the alternatives that fit, and leads past the
decision. -/
theorem running_of_step (symbols : List Int) (h : s.InRange) (hw : Waiting s trails)
    (hsymbol : symbol ≠ Symbol.eof)
    (hnext : ∀ x, x ∈ next ↔ ∃ t ∈ trails, ∃ y, Sent s symbol t y ∧
      ReflTransGen (Moves s) y x ∧ Waits s x) :
    Running s next ∧ fitting s (symbol :: symbols) trails = fitting s symbols next := by
  have hreads {t y : Trail} (hsent : Sent s symbol t y) : Reads s symbol t y :=
    hsent.resolve_left fun hc => hsymbol hc.2.1
  refine ⟨⟨fun x hx => ?_, fun x hx => ?_⟩, Set.ext fun a => ?_⟩
  · obtain ⟨t, ht, y, hty, hyx, hx⟩ := (hnext x).1 hx
    exact ⟨reaches_inRange h hyx ((hreads hty).inRange h (hw t ht).1), hx⟩
  · obtain ⟨t, ht, y, hty, hyx, -⟩ := (hnext x).1 hx
    obtain ⟨st, e, -, -, -, -, rfl⟩ := hreads hty
    exact reaches_only hyx rfl
  · constructor
    · rintro ⟨t, ht, rfl, y, hty, x, hyx, hfits⟩
      refine ⟨x, (hnext x).2 ⟨t, ht, y, .inr hty, hyx, hfits.waits⟩, ?_, hfits⟩
      exact (reaches_alternative hyx).trans hty.alternative_eq
    · rintro ⟨x, hx, rfl, hfits⟩
      obtain ⟨t, ht, y, hty, hyx, -⟩ := (hnext x).1 hx
      have hty := hreads hty
      exact ⟨t, ht, ((reaches_alternative hyx).trans hty.alternative_eq).symm, y, hty,
        x, hyx, hfits⟩

theorem fitting_nil (hnext : ∀ x, x ∈ next ↔
      ∃ t ∈ trails, ∃ y, Sent s Symbol.eof t y ∧ ReflTransGen (Moves s) y x ∧ Waits s x) :
    fitting s [] trails = alternatives next := by
  refine Set.ext fun a => ⟨?_, ?_⟩
  · rintro ⟨t, ht, rfl, hc | ⟨y, hty, x, hyx, hw⟩⟩
    · exact ⟨t, (hnext t).2 ⟨t, ht, t, .inl ⟨hc, rfl, rfl⟩, .refl, .inl hc⟩, rfl⟩
    · exact ⟨x, (hnext x).2 ⟨t, ht, y, .inr hty, hyx, hw⟩,
        (reaches_alternative hyx).trans hty.alternative_eq⟩
  · rintro ⟨x, hx, rfl⟩
    obtain ⟨t, ht, y, ⟨hc, -, rfl⟩ | hty, hyx, hw⟩ := (hnext x).1 hx
    · exact ⟨y, ht, (reaches_alternative hyx).symm, .inl hc⟩
    · exact ⟨t, ht, ((reaches_alternative hyx).trans hty.alternative_eq).symm,
        .inr ⟨y, hty, x, hyx, hw⟩⟩

theorem not_nonempty_fitting : ¬ (fitting s symbols []).Nonempty := by
  rintro ⟨a, t, ht, -⟩
  exact nomatch ht

theorem alternatives_step (hnext : ∀ x, x ∈ next ↔
    ∃ t ∈ trails, ∃ y, Sent s symbol t y ∧ ReflTransGen (Moves s) y x ∧ Waits s x) :
    alternatives next ⊆ alternatives trails := by
  rintro _ ⟨x, hx, rfl⟩
  obtain ⟨t, ht, y, ⟨-, -, rfl⟩ | hty, hyx, -⟩ := (hnext x).1 hx
  · exact ⟨y, ht, (reaches_alternative hyx).symm⟩
  · exact ⟨t, ht, ((reaches_alternative hyx).trans hty.alternative_eq).symm⟩

/-- From a place where there is a token to read, the search chooses among its trails by what is
ahead. -/
theorem returns_chooseFrom (h : s.InRange) (hlast : s.tokens.last.type = Symbol.eof) {fuel : Nat} :
    ∀ {trails : List Trail} {i : Nat}, Running s trails → s.tokens.IsRead i →
      (s.tokens.typesFrom i).length < fuel →
      Returns (chooseFrom s decision fuel trails i)
        (Chooses (alternatives trails) (fitting s (s.tokens.typesFrom i) trails)) := by
  induction fuel with
  | zero => exact fun _ _ h => nomatch h
  | succ fuel ih =>
    intro trails i hr hi hfuel
    unfold chooseFrom
    cases hset : settled? trails with
    | some a =>
      refine returns_pure ⟨fun hne => ⟨a, fitting_eq_of_settled hr.only hset hne, rfl⟩,
        fun b hb => ?_⟩
      obtain rfl := Except.ok.inj hb
      exact (settled?_eq_some hset).1.1
    | none =>
      refine (returns_step (s.tokens.get i).type h hr.waiting).bind fun next hnext => ?_
      have htypes := Tokens.typesFrom_eq hlast hi
      have hfewer := alternatives_step hnext
      by_cases heof : (s.tokens.get i).type = Symbol.eof
      · rw [if_pos heof] at htypes
        rw [htypes, fitting_nil (heof ▸ hnext)]
        split
        · rename_i hempty
          rw [List.isEmpty_iff] at hempty
          subst hempty
          refine returns_pure (.failure ?_)
          rintro ⟨a, x, hx, -⟩
          exact nomatch hx
        · rename_i hne
          have hleast : IsLeast (alternatives next) (least next) :=
            least_isLeast (by simpa using hne)
          refine returns_pure ⟨fun _ => ⟨_, hleast, rfl⟩, fun a ha => ?_⟩
          obtain rfl := Except.ok.inj ha
          exact hfewer hleast.1
      · rw [if_neg heof] at htypes
        rw [htypes] at hfuel ⊢
        obtain ⟨hrun, hfit⟩ := running_of_step (s.tokens.typesFrom (i + 1)) h hr.waiting heof hnext
        rw [hfit]
        split
        · rename_i hempty
          rw [List.isEmpty_iff] at hempty
          subst hempty
          exact returns_pure (.failure not_nonempty_fitting)
        · obtain ⟨hread, hsame⟩ := s.tokens.nextRead_spec (i + 1)
          rw [List.length_cons] at hfuel
          have hgo := ih (i := s.tokens.nextRead (i + 1)) hrun hread (by rw [hsame]; omega)
          rw [hsame] at hgo
          exact hgo.imp fun _ hc => hc.mono hfewer

/-- The alternatives with a path over all the tokens ahead. -/
def viable (s : Setting) (decision : Nat) (st : State) : Set Nat :=
  {a | ∃ i < st.edges.length,
    a = i + 1 ∧ Viable s (s.tokens.typesFrom s.tokens.position) (origin s decision i)}

theorem fitting_start (htrails : ∀ x, x ∈ trails ↔
      ∃ i < st.edges.length, ReflTransGen (Moves s) (origin s decision i) x ∧ Waits s x) :
    fitting s symbols trails =
      {a | ∃ i < st.edges.length, a = i + 1 ∧ Viable s symbols (origin s decision i)} := by
  refine Set.ext fun a => ⟨?_, ?_⟩
  · rintro ⟨x, hx, rfl, hfits⟩
    obtain ⟨i, hi, hix, -⟩ := (htrails x).1 hx
    exact ⟨i, hi, reaches_alternative hix, x, hix, hfits⟩
  · rintro ⟨i, hi, rfl, x, hix, hfits⟩
    exact ⟨x, (htrails x).2 ⟨i, hi, hix, hfits.waits⟩, reaches_alternative hix, hfits⟩

theorem waiting_start (h : s.InRange) (hst : s.net.states[decision]? = some st)
    (hns : st.isRuleStop = false)
    (htrails : ∀ x, x ∈ trails ↔ ∃ i < st.edges.length,
      ReflTransGen (Moves s) (origin s decision i) x ∧ Waits s x) : Waiting s trails := by
  intro x hx
  obtain ⟨i, hi, hix, hw⟩ := (htrails x).1 hx
  exact ⟨reaches_inRange h hix (origin_inRange hst hns hi), hw⟩

/-- A trail that waits behind a decision whose edges take no input has taken its edge of it. -/
theorem only_of_reaches_origin {i : Nat} (hst : s.net.states[decision]? = some st)
    (hns : st.isRuleStop = false) (hsilent : ∀ e ∈ st.edges, e.isSilent = true)
    (hix : ReflTransGen (Moves s) (origin s decision i) x) (hw : Waits s x) : x.only = none := by
  have same {st' : State} (h : s.net.states[decision]? = some st') : st' = st :=
    Option.some.inj (h.symm.trans hst)
  rcases ReflTransGen.cases_head hix with rfl | ⟨y, hm, hyx⟩
  · obtain ⟨e, he, hloud⟩ := (expects_iff hst hns).1 hw
    simp [hsilent e (List.mem_of_getElem? he)] at hloud
  · refine reaches_only hyx ?_
    cases hm with
    | back h hstop => simp [same h, hns] at hstop
    | out h hstop => simp [same h, hns] at hstop
    | push | tail | precedence | silent => rfl

/-- The choice at a decision whose edges take no input gives an answer, the least viable alternative
if any. -/
theorem returns_choose (h : s.InRange) (hready : s.tokens.Ready)
    (hst : s.net.states[decision]? = some st) (hns : st.isRuleStop = false)
    (hsilent : ∀ e ∈ st.edges, e.isSilent = true) :
    Returns (choose s decision) (Chooses (Set.Icc 1 st.edges.length) (viable s decision st)) := by
  unfold choose
  refine (returns_start h hst hns).bind fun trails htrails => ?_
  have hrun : Running s trails := by
    refine ⟨waiting_start h hst hns htrails, fun x hx => ?_⟩
    obtain ⟨i, -, hix, hw⟩ := (htrails x).1 hx
    exact only_of_reaches_origin hst hns hsilent hix hw
  have hviable : fitting s (s.tokens.typesFrom s.tokens.position) trails = viable s decision st :=
    fitting_start htrails
  rw [← hviable]
  have hlength := s.tokens.length_typesFrom_le s.tokens.position
  have hfuel : (s.tokens.typesFrom s.tokens.position).length < s.tokens.size + 1 := by
    unfold Tokens.size
    omega
  have hchosen := @returns_chooseFrom s decision h hready.last _ trails _ hrun hready.position hfuel
  refine hchosen.imp fun _ hc => hc.mono ?_
  rintro _ ⟨x, hx, rfl⟩
  obtain ⟨i, hi, hix, -⟩ := (htrails x).1 hx
  have halt : x.alternative = i + 1 := reaches_alternative hix
  exact ⟨by omega, by omega⟩

end choose

section answer

theorem alternative_of_along {level : Int} (h : t.along level e = some x) :
    x.alternative = t.alternative := by
  unfold Trail.along at h
  dsimp only at h
  split at h
  · split at h
    · exact Option.some.inj h ▸ rfl
    · split at h
      · cases h
      · exact Option.some.inj h ▸ rfl
  · split at h
    · cases h
    · exact Option.some.inj h ▸ rfl
  all_goals first | exact Option.some.inj h ▸ rfl | cases h

theorem alternative_of_close {fuel : Nat} :
    ∀ {t : Trail} {f f' : Front}, close s fuel t f = .ok f' →
    ∀ x ∈ f'.trails, x ∈ f.trails ∨ x.alternative = t.alternative := by
  induction fuel with
  | zero =>
    intro t f f' h
    cases h
  | succ fuel ih =>
    intro t f f' h
    have added {f : Front} : ∀ x ∈ (f.add t).trails, x ∈ f.trails ∨
        x.alternative = t.alternative := by
      intro x hx
      rcases List.mem_append.1 hx with hx | hx
      · exact .inl hx
      · exact .inr (List.mem_singleton.1 hx ▸ rfl)
    rw [close] at h
    split at h
    · exact pure_eq_ok.1 h ▸ fun x hx => .inl hx
    simp only [bind_eq_ok] at h
    obtain ⟨st, -, h⟩ := h
    split at h
    · split at h
      · have hrest := ih h
        exact hrest
      · rw [bind_eq_ok] at h
        obtain ⟨caller, -, h⟩ := h
        have hrest := ih h
        exact hrest
      · exact pure_eq_ok.1 h ▸ added
    · rw [bind_eq_ok] at h
      obtain ⟨edges, -, h⟩ := h
      refine foldlM_keeps (P := fun f' => ∀ x ∈ f'.trails, x ∈ f.trails ∨
        x.alternative = t.alternative)
        (fun e _ g g' hg hs x hx => ?_) ?_ h
      · split at hs
        · rename_i next hnext
          rcases ih hs x hx with hx | hx
          · exact hg x hx
          · exact .inr (hx.trans (alternative_of_along hnext))
        · exact hg x (pure_eq_ok.1 hs ▸ hx)
      · split
        · exact fun x hx => .inl hx
        · exact added

theorem alternative_of_send {f f' : Front} (h : send s symbol f t = .ok f') :
    ∀ x ∈ f'.trails, x ∈ f.trails ∨ x.alternative = t.alternative := by
  unfold send at h
  rw [bind_eq_ok] at h
  obtain ⟨st, -, h⟩ := h
  split at h
  · split at h
    · rw [← pure_eq_ok.1 h]
      intro x hx
      rcases List.mem_append.1 hx with hx | hx
      · exact .inl hx
      · exact .inr (List.mem_singleton.1 hx ▸ rfl)
    · exact pure_eq_ok.1 h ▸ fun x hx => .inl hx
  · rw [bind_eq_ok] at h
    obtain ⟨edges, -, h⟩ := h
    refine foldlM_keeps (P := fun f' => ∀ x ∈ f'.trails, x ∈ f.trails ∨
      x.alternative = t.alternative)
      (fun e _ g g' hg hs x hx => ?_) (fun x hx => .inl hx) h
    split at hs
    · rcases alternative_of_close hs x hx with hx | hx
      · exact hg x hx
      · exact .inr hx
    · exact hg x (pure_eq_ok.1 hs ▸ hx)

theorem alternatives_of_step (h : step s trails symbol = .ok next) :
    alternatives next ⊆ alternatives trails := by
  simp only [step, bind_eq_ok, pure_eq_ok] at h
  obtain ⟨f, hf, rfl⟩ := h
  rintro _ ⟨x, hx, rfl⟩
  refine foldlM_keeps (P := fun f => ∀ x ∈ f.trails, x.alternative ∈ alternatives trails)
    (fun t ht g g' hg hs x hx => ?_) (fun x hx => ?_) hf x hx
  · rcases alternative_of_send hs x hx with hx | hx
    · exact hg x hx
    · exact ⟨t, ht, hx.symm⟩
  · cases hx

theorem alternatives_of_start (h : start s decision = .ok trails)
    (hst : s.net.states[decision]? = some st) :
    alternatives trails ⊆ Set.Icc 1 st.edges.length := by
  simp only [start, bind_eq_ok, pure_eq_ok, Network.state_eq_ok] at h
  obtain ⟨st', hst', f, hf, rfl⟩ := h
  obtain rfl := Option.some.inj (hst.symm.trans hst')
  rintro _ ⟨x, hx, rfl⟩
  refine foldlM_keeps (P := fun f => ∀ x ∈ f.trails, x.alternative ∈ Set.Icc 1 st.edges.length)
    (fun i hi g g' hg hs x hx => ?_) (fun x hx => ?_) hf x hx
  · rcases alternative_of_close hs x hx with hx | hx
    · exact hg x hx
    · have := List.mem_range.1 hi
      rw [hx]
      exact ⟨Nat.le_add_left 1 i, this⟩
  · cases hx

theorem answer_of_chooseFrom {fuel a : Nat} : ∀ {trails : List Trail} {i : Nat},
    chooseFrom s decision fuel trails i = .ok (.ok a) → a ∈ alternatives trails := by
  induction fuel with
  | zero =>
    intro trails i h
    cases h
  | succ fuel ih =>
    intro trails i h
    rw [chooseFrom] at h
    split at h
    · rename_i b hb
      obtain rfl := Except.ok.inj (pure_eq_ok.1 h)
      exact (settled?_eq_some hb).1.1
    · rw [bind_eq_ok] at h
      obtain ⟨next, hnext, h⟩ := h
      refine alternatives_of_step hnext ?_
      split at h
      · cases pure_eq_ok.1 h
      · rename_i hne
        split at h
        · obtain rfl := Except.ok.inj (pure_eq_ok.1 h)
          exact (least_isLeast (by simpa using hne)).1
        · exact ih h

theorem answer_of_choose {a : Nat} (h : choose s decision = .ok (.ok a))
    (hst : s.net.states[decision]? = some st) : a ∈ Set.Icc 1 st.edges.length := by
  simp only [choose, bind_eq_ok] at h
  obtain ⟨trails, htrails, h⟩ := h
  exact alternatives_of_start htrails hst (answer_of_chooseFrom h)

end answer

end GrammarWalk.Choice
