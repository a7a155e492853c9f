import GrammarWalk.NetworkCache
import GrammarWalk.Proofs.Load.Language
import Mathlib.Data.List.Induction
import Mathlib.Data.Set.Function

/-! A cache of networks gives what a load would give, if no two word streams that it was asked for
have the same fingerprint. What a key holds is told by the requests alone: by the last load for the
key that came out, and whether the key was dropped after it. -/

namespace GrammarWalk

namespace NetworkCache

/-- What can be asked of a cache. -/
inductive Request
  | fetch (key : String) (words : List Wire.Word)
  | get (key : String)
  | invalidate (key : String)
  | release (key : String)
  | clear
deriving DecidableEq, Repr, Inhabited

namespace Request

/-- The request is about the key. -/
def Concerns (key : String) : Request → Prop
  | .fetch k _ | .get k | .invalidate k | .release k => k = key
  | .clear => True

def Drops (key : String) : Request → Prop
  | .invalidate k | .release k => k = key
  | .clear => True
  | _ => False

/-- The request is to load words for the key, and the words can be loaded. -/
def Loads (options : LoadOptions) (key : String) (words : List Wire.Word) (r : Request) : Prop :=
  r = .fetch key words ∧ ∃ net, loadWords words options = .ok net

end Request

/-- The last successful load for the key was of the words, and the key was not dropped after it. -/
def Kept (options : LoadOptions) (history : List Request) (key : String) (words : List Wire.Word) :
    Prop :=
  ∃ before r rest, history = before ++ r :: rest ∧ r.Loads options key words ∧
    ∀ r ∈ rest, ¬ r.Drops key ∧ ∀ words, ¬ r.Loads options key words

/-- The word streams that the requests name. -/
def used (history : List Request) : Set (List Wire.Word) :=
  {words | ∃ key, .fetch key words ∈ history}

section serve

variable {κ : Type} [DecidableEq κ] (fingerprint : List Wire.Word → κ)

def serve (c : NetworkCache κ) : Request → NetworkCache κ
  | .fetch key words => (c.fetch fingerprint key words).2
  | .get _ => c
  | .invalidate key | .release key => (c.remove key).2
  | .clear => c.clear

/-- The cache after some requests. -/
def after (options : LoadOptions) (history : List Request) : NetworkCache κ :=
  history.foldl (serve fingerprint) { options }

/-- The request gives the entry of the key. -/
def Yields (c : NetworkCache κ) (key : String) (entry : Entry κ) : Request → Prop
  | .fetch k words => k = key ∧ (c.fetch fingerprint key words).1 = .ok entry
  | .get k => k = key ∧ c.get? key = some entry
  | _ => False

end serve

variable {κ : Type} {c : NetworkCache κ} {key k : String} {words : List Wire.Word} {mark : κ}
  {net : Network} {e : Entry κ}
  {options : LoadOptions} {history : List Request} {r : Request}

section entries

@[simp]
theorem get?_erase : (c.erase key).get? k = if k = key then none else c.get? k := by
  simp only [get?, erase]
  induction c.entries with
  | nil => simp
  | cons entry entries ih =>
    obtain ⟨k', e⟩ := entry
    by_cases hk : k' = key
    · subst hk
      by_cases hkk : k = k'
      · simpa [hkk] using ih
      · simpa [hkk, List.lookup_cons, beq_eq_false_iff_ne.2 hkk] using ih
    · by_cases hkk : k = k'
      · subst hkk
        simp [hk]
      · simpa [hk, List.lookup_cons, beq_eq_false_iff_ne.2 hkk] using ih

theorem get?_insert : (c.insert key mark net).2.get? k =
    if k = key then some (c.insert key mark net).1 else c.get? k := by
  by_cases hk : k = key
  · subst hk
    simp [get?, insert]
  · have herase := @get?_erase _ c key k
    simpa [get?, insert, List.lookup_cons, beq_eq_false_iff_ne.2 hk, hk] using herase

end entries

section kept

theorem kept_concat : Kept options (history ++ [r]) key words ↔ r.Loads options key words ∨
    Kept options history key words ∧ ¬ r.Drops key ∧ ∀ words, ¬ r.Loads options key words := by
  constructor
  · rintro ⟨before, r', rest, heq, hload, hrest⟩
    obtain ⟨rfl, rfl, rfl⟩ | ⟨rest, rfl, rfl⟩ := append_singleton_eq_append_cons.1 heq
    · exact .inl hload
    · refine .inr ⟨⟨before, r', rest, rfl, hload, fun r hr => hrest r ?_⟩, hrest r ?_⟩
      · exact List.mem_append_left _ hr
      · exact List.mem_append_right _ (List.mem_singleton_self r)
  · rintro (hload | ⟨⟨before, r', rest, rfl, hload, hrest⟩, hr⟩)
    · exact ⟨history, r, [], rfl, hload, nofun⟩
    · refine ⟨before, r', rest ++ [r], by simp, hload, fun r'' hmem => ?_⟩
      obtain hmem | hmem := List.mem_append.1 hmem
      · exact hrest r'' hmem
      · exact List.mem_singleton.1 hmem ▸ hr

theorem kept_concat_of_idle (hload : ∀ words, ¬ r.Loads options key words) (hdrop : ¬ r.Drops key) :
    Kept options (history ++ [r]) key words ↔ Kept options history key words := by
  rw [kept_concat]
  exact ⟨fun h => h.elim (fun h => absurd h (hload words)) And.left,
    fun h => .inr ⟨h, hdrop, hload⟩⟩

theorem kept_concat_fetch {words' : List Wire.Word} (hk : k ≠ key) :
    Kept options (history ++ [.fetch key words]) k words' ↔ Kept options history k words' := by
  refine kept_concat_of_idle (fun words'' hl => ?_) not_false
  obtain ⟨hfetch, -⟩ := hl
  cases hfetch
  exact hk rfl

theorem Kept.used (h : Kept options history key words) : words ∈ used history := by
  obtain ⟨before, r, rest, rfl, ⟨rfl, -⟩, -⟩ := h
  exact ⟨key, by simp⟩

theorem used_mono {history' : List Request} (h : history <+: history') :
    used history ⊆ used history' :=
  fun _ ⟨key, hmem⟩ => ⟨key, h.subset hmem⟩

end kept

variable {fingerprint : List Wire.Word → κ}

/-- A cache holds what its history tells, with numbers below that of the next load. -/
structure Follows (fingerprint : List Wire.Word → κ) (options : LoadOptions)
    (history : List Request) (c : NetworkCache κ) : Prop where
  options_eq : c.options = options
  found : ∀ {key e}, c.get? key = some e → ∃ words, Kept options history key words ∧
    e.mark = fingerprint words ∧ loadWords words options = .ok e.network ∧ e.load < c.loads
  kept : ∀ {key words}, Kept options history key words → ∃ e, c.get? key = some e ∧
    e.mark = fingerprint words

namespace Follows

variable (h : Follows fingerprint options history c)
include h

theorem idle (hload : ∀ key words, ¬ r.Loads options key words) (hdrop : ∀ key, ¬ r.Drops key) :
    Follows fingerprint options (history ++ [r]) c where
  options_eq := h.options_eq
  found he := by
    obtain ⟨words, hkept, hrest⟩ := h.found he
    exact ⟨words, (kept_concat_of_idle (hload _) (hdrop _)).2 hkept, hrest⟩
  kept hkept := h.kept ((kept_concat_of_idle (hload _) (hdrop _)).1 hkept)

theorem drop {c' : NetworkCache κ} (hoptions : c'.options = c.options) (hloads : c'.loads = c.loads)
    (hload : ∀ key words, ¬ r.Loads options key words)
    (hdrop : ∀ key, r.Drops key → c'.get? key = none)
    (hrest : ∀ key, ¬ r.Drops key → c'.get? key = c.get? key) :
    Follows fingerprint options (history ++ [r]) c' where
  options_eq := hoptions.trans h.options_eq
  found {key e} he := by
    have hnot : ¬ r.Drops key := fun hd => by simp [hdrop key hd] at he
    rw [hrest key hnot] at he
    obtain ⟨words, hkept, hmark, hnet, hlt⟩ := h.found he
    exact ⟨words, (kept_concat_of_idle (hload key) hnot).2 hkept, hmark, hnet, hloads ▸ hlt⟩
  kept {key words} hkept := by
    obtain hl | ⟨hkept, hnot, -⟩ := kept_concat.1 hkept
    · exact absurd hl (hload key words)
    · rw [hrest key hnot]
      exact h.kept hkept

theorem hit (hinj : Set.InjOn fingerprint (used (history ++ [.fetch key words])))
    (he : c.get? key = some e) (hmark : e.mark = fingerprint words) :
    Kept options history key words ∧ loadWords words options = .ok e.network := by
  obtain ⟨words', hkept, hmark', hnet, -⟩ := h.found he
  have heq : words' = words :=
    hinj (used_mono (List.prefix_append _ _) hkept.used) ⟨key, by simp⟩ (hmark'.symm.trans hmark)
  exact heq ▸ ⟨hkept, hnet⟩

end Follows

variable [DecidableEq κ]

/-- What a fetch can do: it finds an entry of the fingerprint, or it loads; and a load fails or
makes a new entry. -/
theorem fetch_cases (fingerprint : List Wire.Word → κ) (c : NetworkCache κ) (key : String)
    (words : List Wire.Word) :
    (∃ e, c.get? key = some e ∧ e.mark = fingerprint words ∧
      c.fetch fingerprint key words = (.ok e, c)) ∨
    (∀ e, c.get? key = some e → e.mark ≠ fingerprint words) ∧
      ((∃ err, loadWords words c.options = .error err ∧ c.fetch fingerprint key words =
      (.error err, c)) ∨
        ∃ net, loadWords words c.options = .ok net ∧ c.fetch fingerprint key words =
          (.ok (c.insert key (fingerprint words) net).1,
          (c.insert key (fingerprint words) net).2)) := by
  unfold fetch
  cases hhit : (c.get? key).filter (·.mark = fingerprint words) with
  | some e =>
    rw [Option.filter_eq_some_iff] at hhit
    exact .inl ⟨e, hhit.1, of_decide_eq_true hhit.2, rfl⟩
  | none =>
    rw [Option.filter_eq_none_iff] at hhit
    refine .inr ⟨fun e he hmark => hhit e he (decide_eq_true hmark), ?_⟩
    cases hload : loadWords words c.options with
    | error err => exact .inl ⟨err, rfl, rfl⟩
    | ok net => exact .inr ⟨net, rfl, rfl⟩

theorem after_concat :
    after fingerprint options (history ++ [r]) =
      (after fingerprint options history).serve fingerprint r := by
  simp [after]

namespace Follows

variable (h : Follows fingerprint options history c)
include h

theorem fetch (hinj : Set.InjOn fingerprint (used (history ++ [.fetch key words]))) :
    Follows fingerprint options (history ++ [.fetch key words])
      (c.fetch fingerprint key words).2 := by
  obtain ⟨e, he, hmark, heq⟩ | ⟨-, ⟨err, hfails, heq⟩ | ⟨net, hnet, heq⟩⟩ :=
    fetch_cases fingerprint c key words <;>
    rw [heq]
  · obtain ⟨-, hnet⟩ := h.hit hinj he hmark
    refine ⟨h.options_eq, fun {k e'} he' => ?_, fun {k words'} hkept => ?_⟩
    · by_cases hk : k = key
      · subst hk
        obtain rfl := Option.some.inj (he.symm.trans he')
        obtain ⟨-, -, -, -, hlt⟩ := h.found he
        exact ⟨words, kept_concat.2 (.inl ⟨rfl, e.network, hnet⟩), hmark, hnet, hlt⟩
      · obtain ⟨words', hkept, hrest⟩ := h.found he'
        exact ⟨words', (kept_concat_fetch hk).2 hkept, hrest⟩
    · obtain ⟨hfetch, -⟩ | ⟨hkept, -⟩ := kept_concat.1 hkept
      · cases hfetch
        exact ⟨e, he, hmark⟩
      · exact h.kept hkept
  · refine h.idle (fun k words' hl => ?_) fun _ => not_false
    obtain ⟨hfetch, net, hnet⟩ := hl
    cases hfetch
    rw [h.options_eq, hnet] at hfails
    cases hfails
  · rw [h.options_eq] at hnet
    refine ⟨h.options_eq, fun {k e'} he' => ?_, fun {k words'} hkept => ?_⟩
    · rw [get?_insert] at he'
      split at he'
      · subst k
        cases he'
        exact ⟨words, kept_concat.2 (.inl ⟨rfl, net, hnet⟩), rfl, hnet, Nat.lt_succ_self _⟩
      · rename_i hk
        obtain ⟨words', hkept, hmark, hnet', hlt⟩ := h.found he'
        exact ⟨words', (kept_concat_fetch hk).2 hkept, hmark, hnet',
          Nat.lt_succ_of_lt hlt⟩
    · rw [get?_insert]
      obtain ⟨hfetch, -⟩ | ⟨hkept, -, hload⟩ := kept_concat.1 hkept
      · cases hfetch
        exact ⟨_, if_pos rfl, rfl⟩
      · by_cases hk : k = key
        · exact absurd ⟨by rw [hk], net, hnet⟩ (hload words)
        · rw [if_neg hk]
          exact h.kept hkept

theorem serve (hinj : Set.InjOn fingerprint (used (history ++ [r]))) :
    Follows fingerprint options (history ++ [r]) (c.serve fingerprint r) := by
  cases r with
  | fetch key words => exact h.fetch hinj
  | get key => exact h.idle (by simp [Request.Loads]) fun _ => not_false
  | invalidate key | release key =>
    refine h.drop rfl rfl (by simp [Request.Loads]) (fun k hk => ?_) fun k hk => ?_
    · exact get?_erase.trans (if_pos (Eq.symm hk))
    · exact get?_erase.trans (if_neg (Ne.symm hk))
  | clear =>
    exact h.drop rfl rfl (by simp [Request.Loads]) (fun _ _ => rfl) fun _ hk => absurd trivial hk

end Follows

theorem follows_after (hinj : Set.InjOn fingerprint (used history)) :
    Follows fingerprint options history (after fingerprint options history) := by
  induction history using List.reverseRecOn with
  | nil =>
    refine ⟨rfl, nofun, ?_⟩
    rintro key words ⟨before, r, rest, heq, -⟩
    simp at heq
  | append_singleton history r ih =>
    rw [after_concat]
    exact (ih (hinj.mono (used_mono (List.prefix_append _ _)))).serve hinj

section answers

theorem loads_le_serve : c.loads ≤ (c.serve fingerprint r).loads := by
  cases r with
  | fetch key words =>
    show c.loads ≤ (c.fetch fingerprint key words).2.loads
    obtain ⟨e, -, -, heq⟩ | ⟨-, ⟨err, -, heq⟩ | ⟨net, -, heq⟩⟩ :=
      fetch_cases fingerprint c key words <;> rw [heq]
    exact Nat.le_succ _
  | get key | invalidate key | release key | clear => exact Nat.le_refl _

theorem get?_serve (hr : ¬ r.Concerns key) : (c.serve fingerprint r).get? key = c.get? key := by
  cases r with
  | fetch k words =>
    show (c.fetch fingerprint k words).2.get? key = c.get? key
    obtain ⟨e, -, -, heq⟩ | ⟨-, ⟨err, -, heq⟩ | ⟨net, -, heq⟩⟩ :=
      fetch_cases fingerprint c k words <;> rw [heq]
    exact get?_insert.trans (if_neg (Ne.symm hr))
  | get k => rfl
  | invalidate k | release k => exact get?_erase.trans (if_neg (Ne.symm hr))
  | clear => exact absurd trivial hr

theorem get?_serve_of_yields (h : Yields fingerprint c key e r) :
    (c.serve fingerprint r).get? key = some e := by
  cases r with
  | fetch k words =>
    obtain ⟨rfl, h⟩ := h
    show (c.fetch fingerprint k words).2.get? k = some e
    obtain ⟨e', he', -, heq⟩ | ⟨-, ⟨err, -, heq⟩ | ⟨net, -, heq⟩⟩ :=
      fetch_cases fingerprint c k words <;> rw [heq] at h ⊢ <;> cases h
    · exact he'
    · exact get?_insert.trans (if_pos rfl)
  | get k => exact h.2
  | invalidate k | release k | clear => exact h.elim

theorem get?_serve_of_not_yields (h : ∀ e, ¬ Yields fingerprint c key e r) :
    (c.serve fingerprint r).get? key = c.get? key ∨ (c.serve fingerprint r).get? key = none := by
  by_cases hr : r.Concerns key
  · cases r with
    | fetch k words =>
      obtain rfl : k = key := hr
      show (c.fetch fingerprint k words).2.get? k = _ ∨ (c.fetch fingerprint k words).2.get? k = _
      obtain ⟨e', -, -, heq⟩ | ⟨-, ⟨err, -, heq⟩ | ⟨net, -, heq⟩⟩ :=
        fetch_cases fingerprint c k words
      · exact absurd ⟨rfl, by rw [heq]⟩ (h e')
      · exact .inl (by rw [heq])
      · exact absurd ⟨rfl, by rw [heq]⟩ (h _)
    | get k => exact .inl rfl
    | invalidate k | release k => exact .inr (get?_erase.trans (if_pos (Eq.symm hr)))
    | clear => exact .inr rfl
  · exact .inl (get?_serve hr)

/-- A fetch gives the entry that is there just if the fingerprint is its own: the number of a new
one is not in use yet. -/
theorem fetch_found_iff (he : c.get? key = some e) (hlt : e.load < c.loads) :
    (c.fetch fingerprint key words).1 = .ok e ↔ e.mark = fingerprint words := by
  obtain ⟨e', he', hmark, heq⟩ | ⟨hmiss, ⟨err, -, heq⟩ | ⟨net, -, heq⟩⟩ :=
    fetch_cases fingerprint c key words <;> rw [heq]
  · obtain rfl := Option.some.inj (he.symm.trans he')
    simp [hmark]
  · simpa using hmiss e he
  · refine iff_of_false (fun h => ?_) (hmiss e he)
    obtain rfl := Except.ok.inj h
    exact Nat.lt_irrefl _ hlt

theorem network_fetch_congr {c' : NetworkCache κ} (hget : c'.get? key = c.get? key)
    (hoptions : c'.options = c.options) :
    (c'.fetch fingerprint key words).1.map (·.network) = (c.fetch fingerprint key words).1.map
      (·.network) := by
  unfold fetch
  rw [hget, hoptions]
  split
  · rfl
  · split <;> rfl

/-- An entry that was given is there, or nothing is, as long as no other was given; and its number
stays in use. -/
theorem foldl_serve_of_not_yields {between : List Request}
    (he : c.get? key = some e ∨ c.get? key = none) (hlt : e.load < c.loads)
    (h : ∀ earlier r later e', between = earlier ++ r :: later →
      ¬ Yields fingerprint (earlier.foldl (serve fingerprint) c) key e' r) :
    ((between.foldl (serve fingerprint) c).get? key = some e ∨
      (between.foldl (serve fingerprint) c).get? key = none) ∧
      e.load < (between.foldl (serve fingerprint) c).loads := by
  induction between generalizing c with
  | nil => exact ⟨he, hlt⟩
  | cons r between ih =>
    refine ih ?_ (Nat.lt_of_lt_of_le hlt loads_le_serve) fun earlier r' later e' heq => ?_
    · obtain hsame | hnone :=
        get?_serve_of_not_yields (c := c) (r := r) fun e' => h [] r between e' rfl
      · exact hsame ▸ he
      · exact .inr hnone
    · exact h (r :: earlier) r' later e' (by rw [heq, List.cons_append])

namespace Follows

variable (h : Follows fingerprint options history c)
  (hinj : Set.InjOn fingerprint (used (history ++ [.fetch key words])))
include h hinj

theorem fetch_load : (c.fetch fingerprint key words).1.map (·.network) = loadWords words options ∧
    ∀ err, loadWords words options = .error err → (c.fetch fingerprint key words).2 = c := by
  obtain ⟨e, he, hmark, heq⟩ | ⟨-, ⟨err, hfails, heq⟩ | ⟨net, hnet, heq⟩⟩ :=
    fetch_cases fingerprint c key words <;> rw [heq]
  · have hnet := (h.hit hinj he hmark).2
    exact ⟨hnet.symm, fun _ _ => rfl⟩
  · rw [h.options_eq] at hfails
    exact ⟨hfails.symm, fun _ _ => rfl⟩
  · rw [h.options_eq] at hnet
    exact ⟨hnet.symm, fun err hfails => by simp [hnet] at hfails⟩

theorem fetch_shares {e' : Entry κ} (he : c.get? key = some e ∨ c.get? key = none)
    (hlt : e.load < c.loads) (hok : (c.fetch fingerprint key words).1 = .ok e') :
    (e'.load = e.load ↔ Kept options history key words) ∧ (e'.load = e.load → e' = e) := by
  obtain ⟨e'', he'', hmark, heq⟩ | ⟨hmiss, ⟨err, -, heq⟩ | ⟨net, -, heq⟩⟩ :=
    fetch_cases fingerprint c key words <;>
    rw [heq] at hok <;> cases hok
  · obtain rfl : e' = e :=
      he.elim (fun he => Option.some.inj (he''.symm.trans he)) fun he => by simp [he''] at he
    exact ⟨iff_of_true rfl (h.hit hinj he'' hmark).1, fun _ => rfl⟩
  · have hfresh : c.loads ≠ e.load := Nat.ne_of_gt hlt
    refine ⟨iff_of_false hfresh fun hkept => ?_, fun hload => absurd hload hfresh⟩
    obtain ⟨e', he', hmark⟩ := h.kept hkept
    exact hmiss e' he' hmark

end Follows

end answers

/-- A cache is transparent, over any requests of which no two word streams have one fingerprint. A
fetch gives what a load of its words gives, and changes nothing if that fails. After the last answer
for its key it gives the same shared network just if the last load for the key was of the same words
and the key was not dropped after it. What is asked for one key does not change what another holds
and gives. -/
theorem fetch_transparent (fingerprint : List Wire.Word → κ) (options : LoadOptions)
    (history : List Request)
    (hinj : Set.InjOn fingerprint (used history)) :
    let cache := after fingerprint options
    (∀ before key words rest, history = before ++ .fetch key words :: rest →
      ((cache before).fetch fingerprint key words).1.map (·.network) = loadWords words options ∧
      ∀ err, loadWords words options = .error err →
      ((cache before).fetch fingerprint key words).2 = cache before) ∧
    (∀ before r between key words rest e e',
    history = before ++ r :: (between ++ .fetch key words :: rest) →
    Yields fingerprint (cache before) key e r → (∀ earlier r' later e'', between =
    earlier ++ r' :: later → ¬ Yields fingerprint (cache (before ++ r :: earlier)) key e'' r') →
    ((cache (before ++ r :: between)).fetch fingerprint key words).1 = .ok e' → (e'.load = e.load ↔
    Kept options (before ++ r :: between) key words) ∧ (e'.load = e.load → e' = e)) ∧
    ∀ before r rest key, history = before ++ r :: rest → ¬ r.Concerns key →
      (cache (before ++ [r])).get? key = (cache before).get? key ∧
      ∀ words, ((cache (before ++ [r])).fetch fingerprint key words).1.map (·.network) =
          ((cache before).fetch fingerprint key words).1.map (·.network) ∧
        ∀ e, (cache before).get? key = some e →
          (((cache (before ++ [r])).fetch fingerprint key words).1 = .ok e ↔
            ((cache before).fetch fingerprint key words).1 = .ok e) := by
  have follows (before) (h : before <+: history) :
      Follows fingerprint options before (after fingerprint options before) :=
    follows_after (hinj.mono (used_mono h))
  refine ⟨fun before key words rest heq => ?_,
    fun before r between key words rest e e' heq hy hnone hok =>
    ?_, fun before r rest key heq hr => ?_⟩
  · exact (follows _ (heq ▸ List.prefix_append _ _)).fetch_load
      (hinj.mono (used_mono ⟨rest, by simp [heq]⟩))
  · have hfirst := follows (before ++ [r]) ⟨between ++ .fetch key words :: rest, by simp [heq]⟩
    have hlast := follows (before ++ r :: between) ⟨.fetch key words :: rest, by simp [heq]⟩
    have hgiven : (after fingerprint options (before ++ [r])).get? key = some e := by
      rw [after_concat]
      exact get?_serve_of_yields hy
    obtain ⟨-, -, -, -, hlt⟩ := hfirst.found hgiven
    have hfold : ∀ l, after fingerprint options (before ++ r :: l) =
        l.foldl (serve fingerprint) (after fingerprint options (before ++ [r])) := by simp [after]
    obtain ⟨hthere, hlt⟩ :=
      foldl_serve_of_not_yields (.inl hgiven) hlt fun earlier r' later e'' hsplit =>
      hfold earlier ▸ hnone earlier r' later e'' hsplit
    rw [← hfold] at hthere hlt
    exact hlast.fetch_shares (hinj.mono (used_mono ⟨rest, by simp [heq]⟩)) hthere hlt hok
  · have hbefore := follows before (heq ▸ List.prefix_append _ _)
    have hget : (after fingerprint options (before ++ [r])).get? key =
        (after fingerprint options before).get? key := by
      rw [after_concat]
      exact get?_serve hr
    have hafter := follows (before ++ [r]) (by simp [heq])
    refine ⟨hget, fun words =>
      ⟨network_fetch_congr hget (hafter.options_eq.trans hbefore.options_eq.symm), fun e he => ?_⟩⟩
    obtain ⟨-, -, -, -, hlt⟩ := hbefore.found he
    obtain ⟨-, -, -, -, hlt'⟩ := hafter.found (hget.trans he)
    rw [fetch_found_iff he hlt, fetch_found_iff (hget.trans he) hlt']

/-- A fingerprint of 64 bits. -/
def checksum (words : List Wire.Word) : UInt64 :=
  words.foldl (fun mark word => mark * 31 + word.toUInt64) 7

/-- The network of `oneCall` is fetched for two keys and for one of them again, and then an empty
stream. -/
def asked : List Request :=
  [.fetch "a" oneCall, .fetch "b" oneCall, .release "b", .fetch "a" oneCall, .fetch "a" []]

/-- A load without an optimization. -/
def plain : LoadOptions := { optimize := false }

theorem fetch_transparent_asked :
    Set.InjOn checksum (used asked) ∧
    (∃ e, ((after checksum plain []).fetch checksum "a" oneCall).1 = .ok e ∧
      ((after checksum plain (asked.take 3)).fetch checksum "a" oneCall).1 = .ok e) ∧
    ((after checksum plain (asked.take 4)).fetch checksum "a" []).2 = after checksum plain
    (asked.take 4) ∧
    (after checksum plain (asked.take 2)).get? "a" =
    (after checksum plain (asked.take 1)).get? "a" := by
  have hinj : Set.InjOn checksum (used asked) := by
    have hused : ∀ words ∈ used asked, words = oneCall ∨ words = [] := by
      rintro words ⟨key, hmem⟩
      simp only [asked, List.mem_cons, Request.fetch.injEq, reduceCtorEq, List.not_mem_nil,
        or_false, false_or] at hmem
      tauto
    have hne : checksum oneCall ≠ checksum [] := by decide +kernel
    intro words hwords words' hwords' heq
    obtain rfl | rfl := hused words hwords <;> obtain rfl | rfl := hused words' hwords'
    · rfl
    · exact absurd heq hne
    · exact absurd heq.symm hne
    · rfl
  obtain ⟨hload, hshare, hframe⟩ := fetch_transparent checksum plain asked hinj
  obtain ⟨e, he, -⟩ :=
    ok_of_any (x := ((after checksum plain []).fetch checksum "a" oneCall).1) (p := fun _ => true)
    (by decide +kernel)
  obtain ⟨e', he', -⟩ := ok_of_any
    (x := ((after checksum plain (asked.take 3)).fetch checksum "a" oneCall).1) (p := fun _ => true)
    (by decide +kernel)
  obtain ⟨net, hnet, -⟩ :=
    ok_of_any (x := loadWords oneCall plain) (p := fun _ => true) (by decide +kernel)
  have hempty : ∃ err, loadWords [] plain = .error err := ⟨_, rfl⟩
  have hkept : Kept plain (asked.take 3) "a" oneCall := by
    refine ⟨[], .fetch "a" oneCall, [.fetch "b" oneCall, .release "b"], rfl, ⟨rfl, net, hnet⟩,
      fun r hr => ?_⟩
    simp only [List.mem_cons, List.not_mem_nil, or_false] at hr
    obtain rfl | rfl := hr
    · exact ⟨not_false, fun words => by simp [Request.Loads]⟩
    · exact ⟨by simp [Request.Drops], fun words => by simp [Request.Loads]⟩
  have hbetween : ∀ earlier r later e'', [.fetch "b" oneCall, .release "b"] =
      earlier ++ r :: later →
      ¬ Yields checksum (after checksum plain (.fetch "a" oneCall :: earlier)) "a" e'' r := by
    intro earlier r later e'' heq
    have hr : r ∈ [Request.fetch "b" oneCall, .release "b"] := by simp [heq]
    simp only [List.mem_cons, List.not_mem_nil, or_false] at hr
    obtain rfl | rfl := hr
    · simp [Yields]
    · exact not_false
  obtain ⟨hiff, heq⟩ :=
    hshare [] (.fetch "a" oneCall) [.fetch "b" oneCall, .release "b"] "a" oneCall _ e e' rfl
    ⟨rfl, he⟩ hbetween he'
  obtain ⟨err, herr⟩ := hempty
  refine ⟨hinj, ⟨e, he, heq (hiff.2 hkept) ▸ he'⟩, (hload (asked.take 4) "a" [] [] rfl).2 err herr,
    ?_⟩
  exact (hframe (asked.take 1) (.fetch "b" oneCall) (asked.drop 2) "a" rfl
    (by simp [Request.Concerns])).1

end NetworkCache

end GrammarWalk
