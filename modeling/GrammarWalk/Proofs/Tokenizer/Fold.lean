import GrammarWalk.Proofs.Tokenizer.Walk

/-! A search against a search in which some threads are passed over. A thread to be passed over does
not wait and has one thread ahead; it stands for the thread that the moves from it come to, which is
its rest. Two other threads can have the same rest if nothing lies ahead of them. Then the rests of
what the first search lists are, each at its first place, what the second one lists. -/

namespace GrammarWalk.Tokenizer

/-- The graph `h` is the graph `g` with the threads in `through` passed over. A thread that `rest`
tells of comes to its rest in `rank` moves. What `h` does for a thread is known where `within` holds
of it and, if it has been looked at, `plain`. -/
structure Folds (g h : Graph) (within plain through : Thread → Prop) (rest : Thread → Thread)
    (rank : Thread → Nat) : Prop where
  next : ∀ t, within t → ∀ u ∈ g.ahead t, within u
  pass : ∀ t, within t → through t → ∃ u, g.ahead t = [u] ∧ rest u = rest t ∧ rank u < rank t
  quiet : ∀ t, within t → through t → ¬ g.waits t ∧ ¬ g.accepts t
  mark : ∀ t, within t → t.passedNonGreedy = true → (rest t).passedNonGreedy = true
  unmarked : ∀ t, within t → ¬ through t → (rest t).passedNonGreedy = t.passedNonGreedy
  alternative : ∀ t, (rest t).alternative = t.alternative
  ahead : ∀ t, within t → plain t → ¬ through t → h.ahead (rest t) = (g.ahead t).map rest
  waits : ∀ t, within t → ¬ through t → (h.waits (rest t) ↔ g.waits t)
  accepts : ∀ t, within t → ¬ through t → (h.accepts (rest t) ↔ g.accepts t)
  once : ∀ t u, within t → within u → ¬ through t → ¬ through u → rest t = rest u →
    t = u ∨ g.ahead t = [] ∧ ¬ g.accepts t

/-- What the search that passes threads over has come to, while the other has come to `v` and `ts`
is left. -/
structure Mirrors (g h : Graph) (within through : Thread → Prop) (rest : Thread → Thread)
    (rank : Thread → Nat) (ts : List Thread) (v w : Visit) : Prop where
  within : ∀ t ∈ v.seen, within t
  matched : w.matched = v.matched
  listed : w.listed = (v.listed.map rest).eraseDups
  seen : ∀ t ∈ v.seen, ¬ through t → rest t ∈ w.seen
  back : ∀ r ∈ w.seen, ∃ t ∈ v.seen, ¬ through t ∧ rest t = r
  waiting : ∀ r ∈ w.seen, h.waits r → r ∈ w.listed
  shown : ∀ r ∈ w.listed, r ∈ w.seen
  -- the rest of a thread passed over has been dealt with, or is what the search comes to next
  settled : ∀ t ∈ v.seen, through t → w.LeavesOut (rest t) ∨ ∃ u ∈ ts.head?, rest u = rest t ∧
    rank u < rank t

variable {g h : Graph} {within plain through : Thread → Prop} {rest : Thread → Thread}
  {rank : Thread → Nat}
  {ts : List Thread} {t : Thread} {v v' w : Visit}

theorem Mirrors.start : Mirrors g h within through rest rank ts {} {} := by
  constructor <;> simp

namespace Mirrors

theorem settle {us : List Thread} {w' : Visit}
    (hm : Mirrors g h within through rest rank (t :: ts) v w) (hout : w'.LeavesOut (rest t))
    (hmono : ∀ r, w.LeavesOut r → w'.LeavesOut r) :
    ∀ u ∈ v.seen, through u → w'.LeavesOut (rest u) ∨ ∃ x ∈ us.head?, rest x = rest u ∧
      rank x < rank u := by
  intro u hu hthrough
  obtain hu | ⟨x, hx, heq, -⟩ := hm.settled u hu hthrough
  · exact .inl (hmono _ hu)
  · obtain rfl := Option.some.inj hx
    exact .inl (heq ▸ hout)

variable (hf : Folds g h within plain through rest rank)
  (hm : Mirrors g h within through rest rank (t :: ts) v w)
  (ht : within t)
include hf hm ht

theorem leavesOut (hout : v.LeavesOut t) : w.LeavesOut (rest t) := by
  obtain hseen | ⟨hmatched, hmark⟩ := hout
  · by_cases hthrough : through t
    · obtain hout | ⟨u, hu, -, hlt⟩ := hm.settled t hseen hthrough
      · exact hout
      · obtain rfl := Option.some.inj hu
        exact absurd hlt (Nat.lt_irrefl _)
    · exact .inl (hm.seen t hseen hthrough)
  · exact .inr ⟨by rwa [hf.alternative, hm.matched], hf.mark t ht hmark⟩

theorem pass (hout : v.LeavesOut t) : Mirrors g h within through rest rank ts v w :=
  { hm with settled := hm.settle (leavesOut hf hm ht hout) fun _ hr => hr }

theorem look_through (hthrough : through t) :
    ∃ u, g.ahead t = [u] ∧ rest u = rest t ∧
      Mirrors g h within through rest rank (u :: ts) (g.look v t) w := by
  obtain ⟨u, hahead, hrest, hrank⟩ := hf.pass t ht hthrough
  obtain ⟨hwaits, haccepts⟩ := hf.quiet t ht hthrough
  have hlook : g.look v t = { v with seen := t :: v.seen } := by simp [Graph.look, hwaits, haccepts]
  refine ⟨u, hahead, hrest, hlook ▸ { hm with
    within := List.forall_mem_cons.2 ⟨ht, hm.within⟩
    seen := List.forall_mem_cons.2 ⟨fun hnot => absurd hthrough hnot, hm.seen⟩
    back := fun r hr => ?_
    settled := List.forall_mem_cons.2 ⟨fun _ => .inr ⟨u, rfl, hrest, hrank⟩, fun x hx hxt => ?_⟩ }⟩
  · obtain ⟨x, hx, hxr⟩ := hm.back r hr
    exact ⟨x, List.mem_cons_of_mem _ hx, hxr⟩
  · refine (hm.settled x hx hxt).imp_right fun ⟨y, hy, heq, hlt⟩ => ?_
    obtain rfl := Option.some.inj hy
    exact ⟨u, rfl, hrest.trans heq, hrank.trans hlt⟩

theorem look_again (hin : ¬ v.LeavesOut t) (hthrough : ¬ through t) (hout : w.LeavesOut (rest t)) :
    g.ahead t = [] ∧ Mirrors g h within through rest rank ts (g.look v t) w := by
  have hseen : rest t ∈ w.seen := by
    refine hout.resolve_right fun ⟨hmatched, hmark⟩ => hin (.inr ⟨?_, ?_⟩)
    · rwa [hf.alternative, hm.matched] at hmatched
    · rwa [hf.unmarked t ht hthrough] at hmark
  obtain ⟨x, hx, hxt, heq⟩ := hm.back _ hseen
  obtain rfl | ⟨hahead, haccepts⟩ := hf.once t x ht (hm.within x hx) hthrough hxt heq.symm
  · exact absurd (.inl hx) hin
  refine ⟨hahead, ?_⟩
  have hsame : w.listed = ((g.look v t).listed.map rest).eraseDups := by
    unfold Graph.look
    dsimp only
    split
    · -- its rest waits, too, and so it has been listed
      rename_i hwaits
      have hlisted := hm.waiting _ hseen ((hf.waits t ht hthrough).2 hwaits)
      rw [hm.listed, List.mem_eraseDups] at hlisted
      rw [List.map_append, List.map_singleton, eraseDups_concat_of_mem hlisted, hm.listed]
    · exact hm.listed
  refine { hm with
    within := List.forall_mem_cons.2 ⟨ht, hm.within⟩
    matched := by simp [Graph.look, haccepts, hm.matched]
    listed := hsame
    seen := List.forall_mem_cons.2 ⟨fun _ => hseen, hm.seen⟩
    back := fun r hr => ?_
    settled := List.forall_mem_cons.2 ⟨fun hyes => absurd hyes hthrough, ?_⟩ }
  · obtain ⟨y, hy, hyr⟩ := hm.back r hr
    exact ⟨y, List.mem_cons_of_mem _ hy, hyr⟩
  · exact hm.settle hout fun _ hr => hr

theorem look_both (hthrough : ¬ through t) (hnew : ¬ w.LeavesOut (rest t)) {us : List Thread} :
    Mirrors g h within through rest rank us (g.look v t) (h.look w (rest t)) := by
  have hfresh : rest t ∉ w.listed := fun hmem => hnew (.inl (hm.shown _ hmem))
  refine {
    within := List.forall_mem_cons.2 ⟨ht, hm.within⟩
    matched := ?_
    listed := ?_
    seen := List.forall_mem_cons.2
      ⟨fun _ => List.mem_cons_self, fun x hx hxt => List.mem_cons_of_mem _ (hm.seen x hx hxt)⟩
    back := List.forall_mem_cons.2 ⟨⟨t, List.mem_cons_self, hthrough, rfl⟩, fun r hr => ?_⟩
    waiting := List.forall_mem_cons.2 ⟨fun hw => mem_look_listed.2 (.inr ⟨hw, rfl⟩), fun r hr hw =>
      look_listed_subset (hm.waiting r hr hw)⟩
    shown := fun r hr => ?_
    settled := List.forall_mem_cons.2 ⟨fun hyes => absurd hyes hthrough, ?_⟩ }
  · by_cases haccepts : g.accepts t
    · simp [Graph.look, haccepts, (hf.accepts t ht hthrough).2 haccepts, hm.matched, hf.alternative]
    · simp [Graph.look, haccepts, mt (hf.accepts t ht hthrough).1 haccepts, hm.matched]
  · by_cases hwaits : g.waits t
    · have hlist := hfresh
      rw [hm.listed, List.mem_eraseDups] at hlist
      simp only [Graph.look, if_pos hwaits, if_pos ((hf.waits t ht hthrough).2 hwaits)]
      rw [List.map_append, List.map_singleton, eraseDups_concat_of_not_mem hlist, hm.listed]
    · simp [Graph.look, hwaits, mt (hf.waits t ht hthrough).1 hwaits, hm.listed]
  · obtain ⟨y, hy, hyr⟩ := hm.back r hr
    exact ⟨y, List.mem_cons_of_mem _ hy, hyr⟩
  · obtain hr | ⟨-, rfl⟩ := mem_look_listed.1 hr
    · exact List.mem_cons_of_mem _ (hm.shown r hr)
    · exact List.mem_cons_self
  · exact hm.settle (.inl List.mem_cons_self) fun _ hr => leavesOut_look hr

end Mirrors

/-- The search that passes threads over, through the rests of a list, comes to the rests of what the
other comes to. -/
theorem Folds.walk (hf : Folds g h within plain through rest rank) (hw : Walk g ts v v')
    (hts : ∀ t ∈ ts, within t) (hplain : ∀ t ∈ v'.seen, plain t)
    (hm : Mirrors g h within through rest rank ts v w) :
    ∃ w', Walk h (ts.map rest) w w' ∧ Mirrors g h within through rest rank [] v' w' := by
  induction hw generalizing w with
  | done => exact ⟨w, .done, hm⟩
  | @pass t ts v v' hout _ ih =>
    obtain ⟨ht, hts⟩ := List.forall_mem_cons.1 hts
    obtain ⟨w', hwalk, hend⟩ := ih hts hplain (hm.pass hf ht hout)
    exact ⟨w', .pass (hm.leavesOut hf ht hout) hwalk, hend⟩
  | @look t ts v v' hin hrest ih =>
    obtain ⟨ht, hts⟩ := List.forall_mem_cons.1 hts
    have hnext := List.forall_mem_append.2 ⟨hf.next t ht, hts⟩
    by_cases hthrough : through t
    · obtain ⟨u, hahead, heq, hm⟩ := hm.look_through hf ht hthrough
      rw [hahead] at hnext ih
      obtain ⟨w', hwalk, hend⟩ := ih hnext hplain hm
      exact ⟨w', by simpa [heq] using hwalk, hend⟩
    · by_cases hout : w.LeavesOut (rest t)
      · obtain ⟨hahead, hm⟩ := hm.look_again hf ht hin hthrough hout
        rw [hahead] at ih
        obtain ⟨w', hwalk, hend⟩ := ih hts hplain hm
        exact ⟨w', .pass hout hwalk, hend⟩
      · obtain ⟨w', hwalk, hend⟩ := ih hnext hplain (hm.look_both hf ht hthrough hout)
        refine ⟨w', .look hout ?_, hend⟩
        have hplain := hplain t (hrest.seen_subset List.mem_cons_self)
        rwa [hf.ahead t ht hplain hthrough, ← List.map_append]

/-- The machine `h` does what the machine `g` does, with the threads in `through` passed over. -/
structure Reduces (g h : Machine) (within plain through : Thread → Prop) (rest : Thread → Thread)
    (rank : Thread → Nat) : Prop where
  folds : Folds g.toGraph h.toGraph within plain through rest rank
  rooted : ∀ mode, ∀ t ∈ g.roots mode, within t
  roots : ∀ mode, h.roots mode = (g.roots mode).map rest
  sent : ∀ t symbol, within t → ∀ u ∈ g.sends symbol t, within u
  sends : ∀ t symbol, within t → g.waits t → (g.sends symbol t).map rest = h.sends symbol (rest t)

theorem Reduces.refl (m : Machine) :
    Reduces m m (fun _ => True) plain (fun _ => False) id fun _ => 0 where
  folds := {
    next := fun _ _ _ _ => trivial
    pass := fun _ _ hthrough => hthrough.elim
    quiet := fun _ _ hthrough => hthrough.elim
    mark := fun _ _ hmark => hmark
    unmarked := fun _ _ _ => rfl
    alternative := fun _ => rfl
    ahead := fun _ _ _ _ => (List.map_id _).symm
    waits := fun _ _ _ => Iff.rfl
    accepts := fun _ _ _ => Iff.rfl
    once := fun _ _ _ _ _ _ heq => .inl heq }
  rooted _ _ _ := trivial
  roots _ := (List.map_id _).symm
  sent _ _ _ _ _ := trivial
  sends _ _ _ _ := List.map_id _

/-- After the same characters, the rests of what the first machine lists are what the second one
lists. -/
theorem Reduces.after {g h : Machine} {mode : Nat} {text : List Char}
    (hr : Reduces g h within plain through rest rank) (hv : g.After mode text v)
    (hplain : ∀ w v, g.After mode w v → w <+: text → ∀ t ∈ v.seen, plain t) :
    ∃ w, h.After mode text w ∧ Mirrors g.toGraph h.toGraph within through rest rank [] v w := by
  induction hv with
  | start hwalk =>
    obtain ⟨w, hwalk', hm⟩ := hr.folds.walk hwalk (hr.rooted mode)
      (hplain _ _ (.start hwalk) List.prefix_rfl) Mirrors.start
    exact ⟨w, .start (hr.roots mode ▸ hwalk'), hm⟩
  | @step text c v v' hbefore hwalk ih =>
    obtain ⟨w, hafter, hm⟩ := ih fun w v hv hw => hplain w v hv (hw.trans (List.prefix_append ..))
    have hlisted : ∀ t ∈ v.listed, within t ∧ g.waits t := fun t ht =>
      (hbefore.of_listed ht).symm.imp_left (hm.within t)
    obtain ⟨w', hwalk', hm'⟩ := hr.folds.walk hwalk
      (fun u hu => by
        obtain ⟨t, ht, hu⟩ := List.mem_flatMap.1 hu
        exact hr.sent t _ (hlisted t ht).1 u hu)
      (hplain _ _ (.step hbefore hwalk) List.prefix_rfl) Mirrors.start
    refine ⟨w', .step hafter ?_, hm'⟩
    -- the rests of what the symbol leads to are where it leads the rests
    have hsends : (v.listed.flatMap (g.sends c.toNat)).map rest = (v.listed.map rest).flatMap
        (h.sends c.toNat) := by
      rw [List.map_flatMap, List.flatMap_map]
      exact List.flatMap_congr fun t ht => hr.sends t _ (hlisted t ht).1 (hlisted t ht).2
    rw [hm.listed, ← Walk.eraseDups_iff, eraseDups_flatMap_eraseDups, Walk.eraseDups_iff, ← hsends]
    exact hwalk'

end GrammarWalk.Tokenizer
