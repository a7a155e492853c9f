import GrammarWalk.Proofs.Tokenizer.Closure

/-! The search for the threads ahead, depth first, as a walk over a list of threads that are still
to be looked at. A thread is left out when it has been seen, or when its alternative has matched and
it went through a non-greedy decision. What a walk comes to depends on the first places of the
threads in its list, and on nothing else about the list. -/

namespace GrammarWalk.Tokenizer

/-- What a search goes by: the threads that lie one move ahead of a thread, in order of preference,
the threads that wait, and those that end a match. -/
structure Graph where
  ahead : Thread → List Thread
  waits : Thread → Prop
  accepts : Thread → Prop

/-- What a search has come to: the threads seen, last one first, those of them that wait, and the
alternatives that have matched. -/
structure Visit where
  seen : List Thread := []
  listed : List Thread := []
  matched : List Nat := []

/-- The search does not look at the thread. -/
def Visit.LeavesOut (v : Visit) (t : Thread) : Prop :=
  t ∈ v.seen ∨ t.alternative ∈ v.matched ∧ t.passedNonGreedy = true

open Classical in
noncomputable def Graph.look (g : Graph) (v : Visit) (t : Thread) : Visit where
  seen := t :: v.seen
  listed := if g.waits t then v.listed ++ [t] else v.listed
  matched := if g.accepts t then t.alternative :: v.matched else v.matched

/-- A search through the threads of a list and all that lies ahead of them. -/
inductive Walk (g : Graph) : List Thread → Visit → Visit → Prop
  | done {v : Visit} : Walk g [] v v
  | pass {t : Thread} {ts : List Thread} {v v' : Visit} : v.LeavesOut t → Walk g ts v v' →
      Walk g (t :: ts) v v'
  | look {t : Thread} {ts : List Thread} {v v' : Visit} : ¬ v.LeavesOut t →
      Walk g (g.ahead t ++ ts) (g.look v t) v' → Walk g (t :: ts) v v'

variable {g : Graph} {v v' v'' : Visit} {t u : Thread} {ts us : List Thread} {i : Nat}

theorem eraseDups_concat_of_mem (ht : t ∈ ts) : (ts ++ [t]).eraseDups = ts.eraseDups := by
  have hgone : [t].removeAll ts = [] := by simp [List.removeAll, ht]
  rw [List.eraseDups_append, hgone, List.eraseDups_nil, List.append_nil]

theorem eraseDups_concat_of_not_mem (ht : t ∉ ts) :
    (ts ++ [t]).eraseDups = ts.eraseDups ++ [t] := by
  have hkept : [t].removeAll ts = [t] := by simp [List.removeAll, ht]
  rw [List.eraseDups_append, hkept, List.eraseDups_cons, List.filter_nil, List.eraseDups_nil]

section looks

theorem look_matched_subset : v.matched ⊆ (g.look v t).matched := by
  unfold Graph.look
  dsimp only
  split
  · exact List.subset_cons_self ..
  · exact List.Subset.refl _

theorem look_listed_subset : v.listed ⊆ (g.look v t).listed := by
  unfold Graph.look
  dsimp only
  split
  · exact List.subset_append_left ..
  · exact List.Subset.refl _

theorem mem_look_matched :
    i ∈ (g.look v t).matched ↔ i ∈ v.matched ∨ g.accepts t ∧ t.alternative = i := by
  unfold Graph.look
  dsimp only
  split
  · rename_i h
    simp [h, or_comm, eq_comm]
  · rename_i h
    simp [h]

theorem mem_look_listed : u ∈ (g.look v t).listed ↔ u ∈ v.listed ∨ g.waits t ∧ u = t := by
  unfold Graph.look
  dsimp only
  split
  · rename_i h
    simp [h]
  · rename_i h
    simp [h]

theorem leavesOut_look (h : v.LeavesOut u) : (g.look v t).LeavesOut u :=
  h.imp (List.mem_cons_of_mem _) (And.imp_left (look_matched_subset ·))

end looks

def InOrder (ts : List Thread) : Prop := ts.Pairwise fun t u => t.alternative ≤ u.alternative

theorem InOrder.replace {rest : List Thread} (h : InOrder (ts ++ t :: rest))
    (hus : ∀ u ∈ us, u.alternative = t.alternative) : InOrder (ts ++ (us ++ rest)) := by
  simp only [InOrder, List.pairwise_append, List.pairwise_cons, List.mem_cons, List.mem_append,
    forall_eq_or_imp] at h ⊢
  obtain ⟨hts, ⟨hafter, hrest⟩, hbefore⟩ := h
  have hsame : us.Pairwise fun a b => a.alternative ≤ b.alternative :=
    List.pairwise_of_forall_mem_list fun a ha b hb => ((hus a ha).trans (hus b hb).symm).le
  refine ⟨hts, ⟨hsame, hrest, fun a ha b hb => hus a ha ▸ hafter b hb⟩, fun a ha b hb => ?_⟩
  obtain hb | hb := hb
  · exact hus b hb ▸ (hbefore a ha).1
  · exact (hbefore a ha).2 b hb

namespace Walk

theorem det (h : Walk g ts v v') (h' : Walk g ts v v'') : v' = v'' := by
  induction h with
  | done =>
    cases h'
    rfl
  | pass hout _ ih =>
    cases h' with
    | pass _ h' => exact ih h'
    | look hin _ => exact absurd hout hin
  | look hin _ ih =>
    cases h' with
    | pass hout _ => exact absurd hout hin
    | look _ h' => exact ih h'

theorem append (h : Walk g ts v v') (h' : Walk g us v' v'') : Walk g (ts ++ us) v v'' := by
  induction h with
  | done => exact h'
  | pass hout _ ih => exact .pass hout (ih h')
  | look hin _ ih => exact .look hin (by rw [List.append_assoc] at ih; exact ih h')

theorem of_append (h : Walk g (ts ++ us) v v'') : ∃ v', Walk g ts v v' ∧ Walk g us v' v'' := by
  generalize hl : ts ++ us = l at h
  induction h generalizing ts with
  | done =>
    obtain ⟨rfl, rfl⟩ := List.append_eq_nil_iff.1 hl
    exact ⟨_, .done, .done⟩
  | @pass t l v v' hout hrest ih =>
    cases ts with
    | nil =>
      obtain rfl : us = t :: l := hl
      exact ⟨v, .done, .pass hout hrest⟩
    | cons t' ts =>
      obtain ⟨rfl, rfl⟩ := List.cons.inj hl
      obtain ⟨mid, hfirst, hsecond⟩ := ih rfl
      exact ⟨mid, .pass hout hfirst, hsecond⟩
  | @look t l v v' hin hrest ih =>
    cases ts with
    | nil =>
      obtain rfl : us = t :: l := hl
      exact ⟨v, .done, .look hin hrest⟩
    | cons t' ts =>
      obtain ⟨rfl, rfl⟩ := List.cons.inj hl
      obtain ⟨mid, hfirst, hsecond⟩ := ih (List.append_assoc ..)
      exact ⟨mid, .look hin hfirst, hsecond⟩

theorem leavesOut_mono (h : Walk g ts v v') (hout : v.LeavesOut u) : v'.LeavesOut u := by
  induction h with
  | done => exact hout
  | pass _ _ ih => exact ih hout
  | look _ _ ih => exact ih (leavesOut_look hout)

theorem leavesOut (h : Walk g ts v v') (ht : t ∈ ts) : v'.LeavesOut t := by
  induction h with
  | done => exact nomatch ht
  | pass hout hrest ih =>
    obtain rfl | ht := List.mem_cons.1 ht
    · exact hrest.leavesOut_mono hout
    · exact ih ht
  | look _ hrest ih =>
    obtain rfl | ht := List.mem_cons.1 ht
    · exact hrest.leavesOut_mono (.inl List.mem_cons_self)
    · exact ih (List.mem_append_right _ ht)

theorem eq_of_leavesOut (h : Walk g ts v v') (hout : ∀ t ∈ ts, v.LeavesOut t) : v' = v := by
  induction ts with
  | nil =>
    cases h
    rfl
  | cons t ts ih =>
    obtain ⟨ht, hts⟩ := List.forall_mem_cons.1 hout
    cases h with
    | pass _ h => exact ih h hts
    | look hin _ => exact absurd ht hin

theorem of_leavesOut (hout : ∀ t ∈ ts, v.LeavesOut t) : Walk g ts v v := by
  induction ts with
  | nil => exact .done
  | cons t ts ih =>
    obtain ⟨ht, hts⟩ := List.forall_mem_cons.1 hout
    exact .pass ht (ih hts)

theorem eraseDups_iff : Walk g ts.eraseDups v v' ↔ Walk g ts v v' := by
  induction ts using List.reverseRecOn generalizing v' with
  | nil => exact Iff.rfl
  | append_singleton ts t ih =>
    -- the last thread is gone from the shorter list if it stands earlier in the list
    by_cases ht : t ∈ ts
    · rw [eraseDups_concat_of_mem ht, ih]
      constructor
      · exact fun h => h.append
          (of_leavesOut fun u hu => h.leavesOut (List.mem_singleton.1 hu ▸ ht))
      · intro h
        obtain ⟨mid, hfirst, hlast⟩ := h.of_append
        obtain rfl :=
          hlast.eq_of_leavesOut fun u hu => hfirst.leavesOut (List.mem_singleton.1 hu ▸ ht)
        exact hfirst
    · rw [eraseDups_concat_of_not_mem ht]
      constructor
      · intro h
        obtain ⟨mid, hfirst, hlast⟩ := h.of_append
        exact (ih.1 hfirst).append hlast
      · intro h
        obtain ⟨mid, hfirst, hlast⟩ := h.of_append
        exact (ih.2 hfirst).append hlast

theorem listed_subset_seen (h : Walk g ts v v') (hv : v.listed ⊆ v.seen) : v'.listed ⊆ v'.seen := by
  induction h with
  | done => exact hv
  | pass _ _ ih => exact ih hv
  | look _ _ ih =>
    refine ih fun u hu => ?_
    obtain hu | ⟨-, rfl⟩ := mem_look_listed.1 hu
    · exact List.mem_cons_of_mem _ (hv hu)
    · exact List.mem_cons_self

theorem waits_of_listed (h : Walk g ts v v') (hv : ∀ u ∈ v.listed, g.waits u) :
    ∀ u ∈ v'.listed, g.waits u := by
  induction h with
  | done => exact hv
  | pass _ _ ih => exact ih hv
  | look _ _ ih =>
    refine ih fun u hu => ?_
    obtain hu | ⟨hw, rfl⟩ := mem_look_listed.1 hu
    · exact hv u hu
    · exact hw

theorem seen_keeps {P : Thread → Prop} (h : Walk g ts v v')
    (hnext : ∀ t, P t → ∀ u ∈ g.ahead t, P u) (hts : ∀ t ∈ ts, P t) (hv : ∀ t ∈ v.seen, P t) :
    ∀ t ∈ v'.seen, P t := by
  induction h with
  | done => exact hv
  | pass _ _ ih => exact ih (List.forall_mem_cons.1 hts).2 hv
  | look _ _ ih =>
    obtain ⟨ht, hts⟩ := List.forall_mem_cons.1 hts
    exact ih (List.forall_mem_append.2 ⟨hnext _ ht, hts⟩) (List.forall_mem_cons.2 ⟨ht, hv⟩)

theorem seen_subset (h : Walk g ts v v') : v.seen ⊆ v'.seen := by
  induction h with
  | done => exact List.Subset.refl _
  | pass _ _ ih => exact ih
  | look _ _ ih => exact fun u hu => ih (List.mem_cons_of_mem _ hu)

theorem matched_subset (h : Walk g ts v v') : v.matched ⊆ v'.matched := by
  induction h with
  | done => exact List.Subset.refl _
  | pass _ _ ih => exact ih
  | look _ _ ih => exact fun i hi => ih (look_matched_subset hi)

theorem matched_of (h : Walk g ts v v')
    (hnext : ∀ t, ∀ u ∈ g.ahead t, u.alternative = t.alternative) (hi : i ∈ v'.matched) :
    i ∈ v.matched ∨ ∃ t ∈ ts, t.alternative = i := by
  induction h with
  | done => exact .inl hi
  | pass _ _ ih => exact (ih hi).imp_right fun ⟨t, ht, heq⟩ => ⟨t, List.mem_cons_of_mem _ ht, heq⟩
  | look _ _ ih =>
    obtain hi | ⟨u, hu, heq⟩ := ih hi
    · exact (mem_look_matched.1 hi).imp_right fun ⟨_, heq⟩ => ⟨_, List.mem_cons_self, heq⟩
    · obtain hu | hu := List.mem_append.1 hu
      · exact .inr ⟨_, List.mem_cons_self, (hnext _ u hu).symm.trans heq⟩
      · exact .inr ⟨u, List.mem_cons_of_mem _ hu, heq⟩

theorem listed_inOrder (h : Walk g ts v v')
    (hnext : ∀ t, ∀ u ∈ g.ahead t, u.alternative = t.alternative) (hv : InOrder (v.listed ++ ts)) :
    InOrder v'.listed := by
  induction h with
  | done => simpa using hv
  | pass _ _ ih => exact ih (hv.sublist ((List.sublist_cons_self ..).append_left _))
  | @look t ts v v' _ _ ih =>
    refine ih ?_
    unfold Graph.look
    dsimp only
    split
    · rw [List.append_assoc]
      have hreplaced : InOrder (v.listed ++ (t :: g.ahead t ++ ts)) :=
        hv.replace (List.forall_mem_cons.2 ⟨rfl, hnext t⟩)
      exact hreplaced
    · exact hv.replace (hnext t)

end Walk

/-- A search engine: a graph, the threads that a search in a mode begins with, and where a symbol
leads a thread. -/
structure Machine extends Graph where
  roots : Nat → List Thread
  sends : Int → Thread → List Thread

/-- What the searches of a machine come to after some characters. -/
inductive Machine.After (m : Machine) (mode : Nat) : List Char → Visit → Prop
  | start {v : Visit} : Walk m.toGraph (m.roots mode) {} v → m.After mode [] v
  | step {w : List Char} {c : Char} {v v' : Visit} : m.After mode w v →
      Walk m.toGraph (v.listed.flatMap (m.sends c.toNat)) {} v' → m.After mode (w ++ [c]) v'

namespace Machine.After

variable {m : Machine} {mode : Nat} {w : List Char}

theorem det (h : m.After mode w v) (h' : m.After mode w v') : v = v' := by
  generalize hw : w = w' at h'
  induction h generalizing v' w' with
  | start h =>
    cases h' with
    | start h' => exact h.det h'
    | step => simp at hw
  | step _ h ih =>
    cases h' with
    | start => simp at hw
    | step hbefore h' =>
      obtain ⟨rfl, hc⟩ := List.append_inj' hw rfl
      obtain rfl := (List.cons.inj hc).1
      obtain rfl := ih _ rfl hbefore
      exact h.det h'

theorem of_listed (h : m.After mode w v) (ht : t ∈ v.listed) : m.waits t ∧ t ∈ v.seen := by
  cases h with
  | start h => exact ⟨h.waits_of_listed nofun t ht, h.listed_subset_seen nofun ht⟩
  | step _ h => exact ⟨h.waits_of_listed nofun t ht, h.listed_subset_seen nofun ht⟩

theorem seen_keeps {P : Thread → Prop} (h : m.After mode w v) (hroots : ∀ t ∈ m.roots mode, P t)
    (hahead : ∀ t, P t → ∀ u ∈ m.ahead t, P u)
    (hsends : ∀ symbol t, P t → ∀ u ∈ m.sends symbol t, P u) : ∀ t ∈ v.seen, P t := by
  induction h with
  | start h => exact h.seen_keeps hahead hroots nofun
  | step hbefore h ih =>
    refine h.seen_keeps hahead (fun u hu => ?_) nofun
    obtain ⟨t, ht, hu⟩ := List.mem_flatMap.1 hu
    exact hsends _ t (ih t (hbefore.of_listed ht).2) u hu

end Machine.After

theorem eraseDups_flatMap_eraseDups (ts : List Thread) (next : Thread → List Thread) :
    (ts.eraseDups.flatMap next).eraseDups = (ts.flatMap next).eraseDups := by
  induction ts using List.reverseRecOn with
  | nil => rfl
  | append_singleton ts t ih =>
    rw [List.flatMap_append, List.flatMap_singleton]
    by_cases ht : t ∈ ts
    · have hgone : (next t).removeAll (ts.flatMap next) = [] :=
        List.filter_eq_nil_iff.2 fun u hu => by simpa using ⟨t, ht, hu⟩
      rw [eraseDups_concat_of_mem ht, ih, List.eraseDups_append, hgone, List.eraseDups_nil,
        List.append_nil]
    · have hsame : (next t).removeAll (ts.eraseDups.flatMap next) =
          (next t).removeAll (ts.flatMap next) := by
        simp [List.removeAll]
      rw [eraseDups_concat_of_not_mem ht, List.flatMap_append, List.flatMap_singleton,
        List.eraseDups_append, List.eraseDups_append, ih, hsame]

theorem find?_eraseDups (p : Thread → Bool) (ts : List Thread) :
    ts.eraseDups.find? p = ts.find? p := by
  induction ts using List.reverseRecOn with
  | nil => rfl
  | append_singleton ts t ih =>
    by_cases ht : t ∈ ts
    · rw [eraseDups_concat_of_mem ht, ih, List.find?_append]
      cases hfound : ts.find? p with
      | some u => rfl
      | none => simpa using List.find?_eq_none.1 hfound t ht
    · rw [eraseDups_concat_of_not_mem ht, List.find?_append, List.find?_append, ih]

end GrammarWalk.Tokenizer
