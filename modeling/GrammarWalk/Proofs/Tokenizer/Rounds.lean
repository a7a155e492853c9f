import GrammarWalk.Proofs.Tokenizer.Scan

/-! A scan, one round at a time. A round takes a match or passes over a character, and leaves the
lexer in a mode that there is. What can stop it is a search without end: each index on the way names
an entry of its table. -/

namespace GrammarWalk.Tokenizer

open Network Relation

variable {net : Network} {t x y : Thread} {st : State} {e : Edge} {f f' f'' : Front} {symbol : Int}
  {mode n fuel : Nat} {threads : List Thread} {best : Option Match} {text : List Char}
    {accepted : Bool}
  {allowed : Fault → Prop}

section placed

/-- The thread as if it had passed no non-greedy decision. -/
def Thread.unmarked (t : Thread) : Thread := { t with passedNonGreedy := false }

/-- The thread and its calls are in states, and the calls are not too deep. -/
def Thread.Placed (net : Network) (t : Thread) : Prop := t.unmarked.InRange net

theorem along_unmarked {b : Bool} (h : t.along b e = some x) :
    t.unmarked.along false e = some x.unmarked := by
  cases e with
  | call c =>
    simp only [Thread.along] at h ⊢
    split at h
    · cases h
    · rename_i hcalls
      obtain rfl := Option.some.inj h
      exact if_neg hcalls
  | action =>
    obtain rfl := Option.some.inj h
    by_cases hstack : t.stack = [] <;> simp [Thread.along, Thread.unmarked, hstack]
  | epsilon | predicate | precedence =>
    obtain rfl := Option.some.inj h
    rfl
  | atom | range | set | notSet | wildcard => cases h

theorem Thread.Placed.goto {s : Nat} {b : Bool} (ht : t.Placed net) (hs : s < net.states.size) :
    ({ t with state := s, passedNonGreedy := b } : Thread).Placed net :=
  ⟨hs, ht.stack, ht.calls, rfl⟩

/-- The front has still seen all that it had, and has listed nothing but threads that are placed. -/
structure Front.Extends (net : Network) (f f' : Front) : Prop where
  seen : ∀ x, f.Seen x → f'.Seen x
  placed : ∀ x ∈ f'.threads, x ∈ f.threads ∨ x.Placed net

theorem Front.Extends.refl (net : Network) (f : Front) : f.Extends net f :=
  ⟨fun _ => id, fun _ => .inl⟩

theorem Front.Extends.trans (h : f.Extends net f') (h' : f'.Extends net f'') :
    f.Extends net f'' where
  seen x hx := h'.seen x (h.seen x hx)
  placed x hx := (h'.placed x hx).elim (h.placed x) .inr

theorem Front.Extends.add (h : f.Extends net f') (ht : t.Placed net) :
    f.Extends net (f'.add t) where
  seen := h.seen
  placed x hx :=
    (List.mem_append.1 hx).elim (h.placed x) fun hx => .inr (List.mem_singleton.1 hx ▸ ht)

theorem yields_close_succ (hw : net.Wired) (hx : x.Placed net)
    (hnext : ¬ f.Seen x →
      ∀ {y : Thread} {accepted : Bool} {f' : Front}, Moves net x.unmarked y.unmarked →
      Front.Extends net { f with seen := f.seen.insert x.stack.length x } f' →
      Yields allowed (close net fuel y accepted f') fun r => f'.Extends net r.2) :
    Yields allowed (close net (fuel + 1) x accepted f) fun r => f.Extends net r.2 := by
  unfold close
  split
  · exact yields_pure (.refl net f)
  rename_i hseen
  have hnext := @hnext hseen
  have hmarked : f.Extends net { f with seen := f.seen.insert x.stack.length x } :=
    ⟨fun y hy => Front.seen_insert.2 (.inr hy), fun _ => .inl⟩
  refine (returns_state hx.state).yields.bind fun st hst => ?_
  have hst : net.states[x.state]? = some st := hst
  split
  · rename_i hstop
    split
    · exact yields_pure (hmarked.add hx)
    · rename_i caller stack hstack
      have hm : Moves net x.unmarked ({ x with state := caller, stack } : Thread).unmarked :=
        .back hst hstop hstack
      exact (hnext hm (.refl net _)).imp fun r hr => hmarked.trans hr
  · rename_i hns
    have hns : st.isRuleStop = false := Bool.not_eq_true _ ▸ hns
    -- the loop over the edges begins with the front in which the thread is marked
    refine Yields.imp (P := fun r : Bool × Front =>
      Front.Extends net { f with seen := f.seen.insert x.stack.length x } r.2)
      (yields_foldlM (fun e he r hr => ?_) ?_)
      fun r hr => hmarked.trans hr
    · obtain ⟨sofar, f'⟩ := r
      refine (returns_state ((hw.within hst).followed e he).1).yields.bind fun ahead _ => ?_
      split
      · exact yields_pure hr
      · rename_i next halong
        split
        · exact yields_pure hr
        · exact (hnext (.along hst hns he (along_unmarked halong)) hr).bind fun r' hr' =>
            yields_pure (hr.trans hr')
    · dsimp only
      split
      · exact .refl net _
      · exact (Front.Extends.refl net _).add hx

/-- Closing over a thread goes wrong in no way that is not allowed. -/
def Closes (net : Network) (allowed : Fault → Prop) : Prop :=
  ∀ t : Thread, t.Placed net → ∀ accepted f,
    Yields allowed (close net (closeBound net) t accepted f) fun r => f.Extends net r.2

theorem closes_unfinished (hw : net.Wired) : Closes net (· = .unfinished) := by
  intro t ht accepted f
  generalize closeBound net = fuel
  induction fuel generalizing t accepted f with
  | zero => exact yields_error rfl
  | succ fuel ih =>
    exact yields_close_succ hw ht fun _ _ _ _ hm _ => ih _ (hm.inRange hw ht) _ _

end placed

section rounds

theorem yields_sendThrough (hclose : Closes net allowed) (ht : t.Placed net) {es : List Edge}
    (hes : ∀ e ∈ es, e.target < net.states.size) (f : Front) :
    Yields allowed (sendThrough net t symbol accepted es f) fun r => f.Extends net r.2 := by
  induction es generalizing f with
  | nil => exact yields_pure (.refl net f)
  | cons e es ih =>
    obtain ⟨he, hes⟩ := List.forall_mem_cons.1 hes
    rw [sendThrough]
    split
    · refine (hclose _ (ht.goto he) accepted f).bind ?_
      rintro ⟨matched, f'⟩ hf'
      dsimp only
      split
      · exact yields_pure hf'
      · exact (ih hes f').imp fun r hr => hf'.trans hr
    · exact ih hes f

theorem yields_step (hw : net.Wired) (hclose : Closes net allowed)
    (hthreads : ∀ t ∈ threads, t.Placed net) (symbol : Int) :
    Yields allowed (step net threads symbol) fun next => ∀ x ∈ next.threads, x.Placed net := by
  refine Yields.bind (P := fun r : Option Nat × Front => ∀ x ∈ r.2.threads, x.Placed net)
    (yields_foldlM (fun t ht r hr => ?_) nofun) fun r hr => yields_pure hr
  dsimp only
  split
  · exact yields_pure hr
  · refine (returns_state (hthreads t ht).state).yields.bind fun st hst => ?_
    split
    · exact yields_pure hr
    · refine (yields_sendThrough hclose (hthreads t ht) (fun e he =>
        ((hw.within hst).followed e he).1) r.2).bind fun r' hr' => yields_pure fun x hx => ?_
      exact (hr'.placed x hx).elim (hr x) id

theorem yields_start (hw : net.Wired) (hclose : Closes net allowed)
    (hmode : mode < net.modes.size) :
    Yields allowed (start net mode) fun front => ∀ x ∈ front.threads, x.Placed net := by
  obtain ⟨s, hs⟩ : ∃ s, net.modes[mode]? = some s := ⟨_, Array.getElem?_eq_getElem hmode⟩
  obtain ⟨st, hst, -⟩ := hw.mode hs
  unfold start
  refine (returns_ofLookup (P := (· = s)) hs rfl).yields.bind fun s' hs' => ?_
  subst hs'
  refine (returns_ofLookup (P := (· = st)) hst rfl).yields.bind fun st' hst' => ?_
  subst hst'
  refine yields_foldlM (fun ⟨e, i⟩ he front hfront => ?_) nofun
  have hin := ((hw.within hst).edges e (List.fst_mem_of_mem_zipIdx he)).1
  have hplaced : ({ state := e.target, alternative := i, passedNonGreedy := st'.isNonGreedy } :
      Thread).Placed net :=
    ⟨hin, nofun, Nat.zero_le _, rfl⟩
  refine (hclose _ hplaced false front).bind fun r hr => yields_pure fun x hx => ?_
  exact (hr.placed x hx).elim (hfront x) id

theorem returns_matchOf_placed (hf : ∀ t ∈ f.threads, t.Placed net) :
    Returns (matchOf net n f) fun found => ∀ m, found = some m → m.length = n := by
  have haccepting : Returns (f.threads.findM? (Thread.isAccepting net)) fun _ => True := by
    refine returns_findM? fun t ht => ?_
    unfold Thread.isAccepting
    split
    · exact (returns_state (hf t ht).state).bind fun _ _ => returns_pure trivial
    · exact returns_pure trivial
  unfold matchOf
  refine (haccepting.and fun o ho => ho).bind fun o ⟨_, ho⟩ => ?_
  cases o with
  | none => exact returns_pure nofun
  | some t =>
    refine (returns_state (hf t (mem_of_findM?_eq_ok ho).1).state).bind fun st _ =>
      returns_pure fun m hm => ?_
    obtain rfl := Option.some.inj hm
    rfl

/-- The match takes some of the characters, and no more than there are. -/
def Match.Fits (length : Nat) (m : Match) : Prop := 0 < m.length ∧ m.length ≤ length

theorem yields_readOn (hw : net.Wired) (hclose : Closes net allowed)
    (hthreads : ∀ t ∈ threads, t.Placed net)
    (hbest : ∀ m, best = some m → m.Fits (n + text.length)) :
    Yields allowed (readOn net threads n best text) fun found => ∀ m, found = some m →
      m.Fits (n + text.length) := by
  induction text generalizing threads n best with
  | nil => exact yields_pure hbest
  | cons c text ih =>
    have hlength : n + (c :: text).length = n + 1 + text.length := by
      rw [List.length_cons]
      omega
    rw [hlength] at hbest ⊢
    rw [readOn]
    split
    · exact yields_pure hbest
    · refine (yields_step hw hclose hthreads c.toNat).bind fun front hfront => ?_
      refine (returns_matchOf_placed hfront).yields.bind fun found hfound =>
        ih hfront fun m hm => ?_
      cases found with
      | none => exact hbest m hm
      | some m' =>
        obtain rfl := Option.some.inj hm
        rw [Match.Fits, hfound _ rfl]
        exact ⟨Nat.succ_pos n, Nat.le_add_right _ _⟩

theorem yields_longestMatch (hw : net.Wired) (hclose : Closes net allowed)
    (hmode : mode < net.modes.size) (text : List Char) :
    Yields allowed (longestMatch net mode text) fun found => ∀ m, found = some m →
      m.Fits text.length :=
  (yields_start hw hclose hmode).bind fun _ hfront =>
    (yields_readOn hw hclose hfront (by simp)).imp fun _ h m hm => Nat.zero_add text.length ▸ h m hm

/-- The current mode and the saved ones are modes of the lexer. -/
def Modes.InRange (net : Network) (m : Modes) : Prop :=
  ∀ mode ∈ m.current :: m.saved, mode < net.modes.size

theorem Modes.InRange.switch {m : Modes} (h : m.InRange net) (mode : Int) :
    (m.switch net mode).InRange net := by
  unfold Modes.switch
  split
  · rename_i hmode
    refine List.forall_mem_cons.2 ⟨?_, (List.forall_mem_cons.1 h).2⟩
    show mode.toNat < net.modes.size
    omega
  · exact h

theorem Modes.InRange.perform {m : Modes} {o : Outcome} (h : m.InRange net) (c : Command) :
    (perform net o m c).2.InRange net := by
  cases c with
  | mode mode => exact h.switch mode
  | pushMode mode =>
    have hsaved : Modes.InRange net { m with saved := m.current :: m.saved } := by
      rintro other (_ | ⟨_, hother⟩)
      · exact h _ List.mem_cons_self
      · exact h _ hother
    exact hsaved.switch mode
  | popMode =>
    obtain ⟨current, _ | ⟨mode, saved⟩⟩ := m
    · exact h
    · exact (List.forall_mem_cons.1 h).2
  | _ => exact h

theorem Modes.InRange.performAll {m : Modes} (h : m.InRange net) (found : Match) :
    (performAll net found m).2.InRange net := by
  refine foldl_keeps (P := fun om : Outcome × Modes => om.2.InRange net) (fun i _ om hom => ?_) h
  dsimp only
  split
  · exact hom.perform _
  · exact hom

theorem Modes.inRange_start (h : 0 < net.modes.size) : ({} : Modes).InRange net := by
  simpa [Modes.InRange] using h

/-- One round of a scan, with the text that is left to read before it and after it. -/
inductive Round (net : Network) : Scan × List Char → Scan × List Char → Prop
  | matched {s : Scan} {text : List Char} {found : Match} : text ≠ [] →
      longestMatch net s.modes.current text = .ok (some found) →
      Round net (s, text) (s.afterMatch net found (text.take found.length), text.drop found.length)
  | refused {s : Scan} {c : Char} {text : List Char} :
      longestMatch net s.modes.current (c :: text) = .ok none →
      Round net (s, c :: text) (s.afterError c, text)

namespace Scan

variable {s s' : Scan} {rest : List Char}

theorem modes_afterMatch (s : Scan) (found : Match) (text : List Char) :
    (s.afterMatch net found text).modes = (performAll net found s.modes).2 := by
  unfold afterMatch
  dsimp only
  split <;> rfl

theorem inRange_round (hs : s.modes.InRange net) (h : Round net (s, text) (s', rest)) :
    s'.modes.InRange net := by
  cases h with
  | matched => exact modes_afterMatch s _ _ ▸ hs.performAll _
  | refused => exact hs

theorem inRange_rounds (hs : s.modes.InRange net)
    (h : ReflTransGen (Round net) (s, text) (s', rest)) : s'.modes.InRange net := by
  have key : ∀ p q : Scan × List Char, ReflTransGen (Round net) p q → p.1.modes.InRange net →
      q.1.modes.InRange net := by
    intro p q h hp
    induction h with
    | refl => exact hp
    | tail _ hr ih => exact inRange_round ih hr
  exact key _ _ h hs

theorem rounds_of_run (h : run net fuel s text = .ok s') :
    ReflTransGen (Round net) (s, text) (s', []) := by
  induction fuel generalizing s text with
  | zero =>
    cases text with
    | nil => exact pure_eq_ok.1 h ▸ .refl
    | cons => cases h
  | succ fuel ih =>
    cases text with
    | nil => exact pure_eq_ok.1 h ▸ .refl
    | cons c text =>
      rw [run, bind_eq_ok] at h
      obtain ⟨found, hfound, h⟩ := h
      cases found with
      | none => exact .head (.refused hfound) (ih h)
      | some found => exact .head (.matched (List.cons_ne_nil c text) hfound) (ih h)

theorem yields_run (hw : net.Wired) (hclose : Closes net allowed) (hs : s.modes.InRange net)
    (hfuel : text.length ≤ fuel) : Yields allowed (run net fuel s text) fun _ => True := by
  induction fuel generalizing s text with
  | zero =>
    obtain rfl := List.eq_nil_of_length_eq_zero (Nat.le_zero.1 hfuel)
    exact yields_pure trivial
  | succ fuel ih =>
    cases text with
    | nil => exact yields_pure trivial
    | cons c text =>
      rw [run]
      refine (yields_longestMatch hw hclose ((List.forall_mem_cons.1 hs).1) (c :: text)).bind
        fun found hfound => ?_
      cases found with
      | none => exact ih (s := s.afterError c) hs (Nat.le_of_succ_le_succ hfuel)
      | some found =>
        refine ih (modes_afterMatch s found _ ▸ hs.performAll found) ?_
        have := (hfound found rfl).1
        rw [List.length_drop]
        omega

end Scan

end rounds

end GrammarWalk.Tokenizer
