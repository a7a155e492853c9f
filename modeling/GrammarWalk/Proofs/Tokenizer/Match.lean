import GrammarWalk.Proofs.Load.Followed
import GrammarWalk.Proofs.Tokenizer.Closure
import Mathlib.Order.Bounds.Basic

/-! The longest match. The threads after some characters are all that the mode's start edges can
lead to along them, in the order of these edges; so the match found last is the longest, and the
first thread at the end of a rule is one of the first edge that has it. -/

namespace GrammarWalk.Tokenizer

open Network Relation

variable {net : Network} {t u x y z : Thread} {st : State} {e : Edge} {f f' : Front}
  {symbol : Int} {c : Char}
  {w v text rest : List Char} {mode i n : Nat} {threads : List Thread} {p q : Spot}
    {found best : Option Match}

/-- What the search for a match relies on. -/
structure Searchable (net : Network) : Prop where
  wired : net.Wired
  greedy : net.Greedy
  advance : net.ActionsAdvance
  matchesRaw : net.MatchesRaw
  single : ∀ {s : Nat} {st : State} {e e' : Edge}, net.states[s]? = some st → e ∈ st.followed →
    e' ∈ st.followed → e.isSilent = false → e'.isSilent = false → e = e'
  keeps : ∀ r, net.KeepsTo State.followed (some r)

section paths

/-- The paths from a spot that read the given characters, with their calls made and returned
from. -/
inductive Spells (net : Network) (p : Spot) : List Char → Spot → Prop
  | refl : Spells net p [] p
  | slip {w : List Char} {q q' : Spot} : Spells net p w q → net.Slip State.followed Shallow q q' →
      Spells net p w q'
  | read {w : List Char} {s : Nat} {stack : List Nat} {st : State} {e : Edge} {c : Char} :
      Spells net p w (s, stack) → net.states[s]? = some st → st.isRuleStop = false →
        e ∈ st.followed →
      e.accepts c.toNat Symbol.minChar Symbol.maxChar = true →
      Spells net p (w ++ [c]) (e.target, stack)

/-- The edge of the mode's start state at a place. -/
def startEdge? (net : Network) (mode i : Nat) : Option Edge := do
  let s ← net.modes[mode]?
  let st ← net.states[s]?
  st.edges[i]?

/-- From behind the start edge at a place, the characters lead to the end of a rule with every call
returned. -/
def Matches (net : Network) (mode i : Nat) (w : List Char) : Prop :=
  ∃ e stop st, startEdge? net mode i = some e ∧ Spells net (e.target, []) w (stop, []) ∧
    net.states[stop]? = some st ∧ st.isRuleStop = true

theorem startEdge?_eq_some : startEdge? net mode i = some e ↔
    ∃ s st, net.modes[mode]? = some s ∧ net.states[s]? = some st ∧ st.edges[i]? = some e := by
  simp only [startEdge?, Option.bind_eq_bind, Option.bind_eq_some_iff]
  exact ⟨fun ⟨s, hs, st, hst, he⟩ => ⟨s, st, hs, hst, he⟩,
    fun ⟨s, st, hs, hst, he⟩ => ⟨s, hs, st, hst, he⟩⟩

theorem Spells.ownerOf_bottom {o : Option Nat} (h : Spells net p w q)
    (hk : net.KeepsTo State.followed o) (ho : net.ownerOf p.bottom = o) :
    net.ownerOf q.bottom = o := by
  induction h with
  | refl => exact ho
  | slip _ hslip ih => exact hslip.ownerOf_bottom hk ih
  | @read _ s stack st e c _ hst hns he hacc ih =>
    cases stack with
    | nil =>
      refine hk ⟨st, hst, hns, e, he, Edge.onward_of_call?_eq_none ?_⟩ ih
      cases e <;> first | rfl | cases hacc
    | cons => exact ih

def Sends (net : Network) (symbol : Int) (t x : Thread) : Prop :=
  ∃ st e, net.states[t.state]? = some st ∧ st.isRuleStop = false ∧ e ∈ st.followed ∧
    e.accepts symbol Symbol.minChar Symbol.maxChar = true ∧ x = { t with state := e.target }

/-- What a thread can be after some characters. -/
inductive Becomes (net : Network) (t : Thread) : List Char → Thread → Prop
  | refl : Becomes net t [] t
  | move {w : List Char} {x y : Thread} : Becomes net t w x → Moves net x y → Becomes net t w y
  | send {w : List Char} {x y : Thread} {c : Char} : Becomes net t w x → Sends net c.toNat x y →
      Becomes net t (w ++ [c]) y

theorem Becomes.spells (h : Becomes net t w x) : Spells net t.spot w x.spot := by
  induction h with
  | refl => exact .refl
  | move _ hm ih => exact ih.slip hm.slip
  | send _ hs ih =>
    obtain ⟨st, e, hst, hns, he, hacc, rfl⟩ := hs
    exact ih.read hst hns he hacc

theorem exists_becomes (h : Spells net t.spot w p) : ∃ x, Becomes net t w x ∧ x.spot = p := by
  induction h with
  | refl => exact ⟨t, .refl, rfl⟩
  | slip _ hslip ih =>
    obtain ⟨x, hx, rfl⟩ := ih
    obtain ⟨y, hm, hy⟩ := exists_moves hslip
    exact ⟨y, hx.move hm, hy⟩
  | read _ hst hns he hacc ih =>
    obtain ⟨x, hx, hspot⟩ := ih
    obtain ⟨rfl, rfl⟩ := Prod.mk.inj hspot
    exact ⟨_, hx.send ⟨_, _, hst, hns, he, hacc, rfl⟩, rfl⟩

theorem Becomes.moves (h : Becomes net t w x) (hm : ReflTransGen (Moves net) x y) :
    Becomes net t w y := by
  induction hm with
  | refl => exact h
  | tail _ hm ih => exact ih.move hm

theorem becomes_nil_iff : Becomes net t [] x ↔ ReflTransGen (Moves net) t x := by
  constructor
  · intro h
    generalize hw : [] = w at h
    induction h with
    | refl => exact .refl
    | move _ hm ih => exact (ih hw).tail hm
    | send => simp at hw
  · exact Becomes.refl.moves

theorem becomes_concat_iff : Becomes net t (w ++ [c]) x ↔
    ∃ y z, Becomes net t w y ∧ Sends net c.toNat y z ∧ ReflTransGen (Moves net) z x := by
  constructor
  · intro h
    generalize hw : w ++ [c] = w' at h
    induction h with
    | refl => simp at hw
    | move _ hm ih =>
      obtain ⟨y, z, hy, hyz, hz⟩ := ih hw
      exact ⟨y, z, hy, hyz, hz.tail hm⟩
    | send hx hs =>
      obtain ⟨rfl, hc⟩ := List.append_inj' hw rfl
      obtain rfl := List.singleton_inj.1 hc
      exact ⟨_, _, hx, hs, .refl⟩
  · rintro ⟨y, z, hy, hyz, hz⟩
    exact (hy.send hyz).moves hz

theorem Sends.inRange (hw : net.Wired) (h : Sends net symbol t x) (ht : t.InRange net) :
    x.InRange net := by
  obtain ⟨st, e, hst, -, he, -, rfl⟩ := h
  exact ⟨((hw.within hst).followed e he).1, ht.stack, ht.calls, ht.greedy⟩

theorem Sends.waits (h : Searchable net) (hs : Sends net symbol t x) : Waits net t := by
  obtain ⟨st, e, hst, hns, he, hacc, -⟩ := hs
  refine .inr ⟨st, hst, hns, ?_⟩
  have hloud := Edge.isSilent_of_accepts hacc
  rw [State.isSilent, Bool.and_eq_false_iff, List.all_eq_false]
  exact .inr ⟨e, h.matchesRaw hst he hloud, by simp [hloud]⟩

theorem Becomes.inRange (hw : net.Wired) (h : Becomes net t w x) (ht : t.InRange net) :
    x.InRange net := by
  induction h with
  | refl => exact ht
  | move _ hm ih => exact hm.inRange hw ih
  | send _ hs ih => exact hs.inRange hw ih

theorem Becomes.alternative_eq (h : Becomes net t w x) : x.alternative = t.alternative := by
  induction h with
  | refl => rfl
  | move _ hm ih => exact hm.alternative_eq.trans ih
  | send _ hs ih =>
    obtain ⟨_, _, _, _, _, _, rfl⟩ := hs
    exact ih

theorem Becomes.exists_waits (h : Searchable net) (hx : Becomes net t (w ++ c :: v) x) :
    ∃ y, Becomes net t w y ∧ Waits net y := by
  generalize hw : w ++ c :: v = w' at hx
  induction hx generalizing v with
  | refl => simp at hw
  | move _ _ ih => exact ih hw
  | @send w' x y d hx hs ih =>
    obtain rfl | ⟨v', d', rfl⟩ := List.eq_nil_or_concat' v
    · obtain ⟨rfl, -⟩ := List.append_inj' hw rfl
      exact ⟨x, hx, hs.waits h⟩
    · have hw : (w ++ c :: v') ++ [d'] = w' ++ [d] := by simpa using hw
      exact ih (List.append_inj' hw rfl).1

end paths

section layers

/-- The threads that the lexer begins with. -/
def Begins (net : Network) (mode : Nat) (t : Thread) : Prop :=
  ∃ i e, startEdge? net mode i = some e ∧ t = { state := e.target, alternative := i }

theorem Begins.inRange (hw : net.Wired) (h : Begins net mode t) : t.InRange net := by
  obtain ⟨i, e, he, rfl⟩ := h
  obtain ⟨s, st, -, hst, hi⟩ := startEdge?_eq_some.1 he
  exact ⟨((hw.within hst).edges e (List.mem_of_getElem? hi)).1, by simp, by simp, rfl⟩

theorem matches_iff : Matches net mode i w ↔
    ∃ t x, Begins net mode t ∧ t.alternative = i ∧ Becomes net t w x ∧ Accepting net x := by
  constructor
  · rintro ⟨e, stop, st, he, hpath, hst, hstop⟩
    obtain ⟨x, hx, hspot⟩ := exists_becomes (t := { state := e.target, alternative := i }) hpath
    obtain ⟨rfl, hstack⟩ := Prod.mk.inj hspot
    exact ⟨_, x, ⟨i, e, he, rfl⟩, rfl, hx, hstack, st, hst, hstop⟩
  · rintro ⟨_, x, ⟨i, e, he, rfl⟩, rfl, hx, hstack, st, hst, hstop⟩
    have hpath := hx.spells
    rw [Thread.spot, Thread.spot, hstack] at hpath
    exact ⟨e, x.state, st, he, hpath, hst, hstop⟩

def Ordered (threads : List Thread) : Prop :=
  threads.Pairwise fun t u => t.alternative ≤ u.alternative

/-- The threads after some characters. -/
structure Layer (net : Network) (mode : Nat) (w : List Char) (threads : List Thread) : Prop where
  mem : ∀ x, x ∈ threads ↔ (∃ t, Begins net mode t ∧ Becomes net t w x) ∧ Waits net x
  ordered : Ordered threads

theorem Layer.inRange (hw : net.Wired) (h : Layer net mode w threads) :
    ∀ t ∈ threads, t.InRange net := by
  intro x hx
  obtain ⟨⟨t, ht, htx⟩, -⟩ := (h.mem x).1 hx
  exact htx.inRange hw (ht.inRange hw)

/-- Sending a thread along its edges closes a front over what the thread becomes. If a rule has
matched, the edges left over are the same. -/
theorem returns_sendThrough (h : Searchable net) (ht : t.InRange net) {es : List Edge}
    (accepted : Bool) (hin : ∀ e ∈ es, e.target < net.states.size)
    (hone : ∀ e ∈ es, ∀ e' ∈ es, e.accepts symbol Symbol.minChar Symbol.maxChar = true →
      e'.accepts symbol Symbol.minChar Symbol.maxChar = true → e = e') (f : Front) :
    Returns (sendThrough net t symbol accepted es f) (Closed net (fun x => ∃ e ∈ es,
      e.accepts symbol Symbol.minChar Symbol.maxChar = true ∧ x = { t with state := e.target })
      (accepted, f)) := by
  induction es generalizing f with
  | nil => exact returns_pure (Fronts.Closed.none (k := fronts) (by simp))
  | cons e es ih =>
    obtain ⟨hine, hines⟩ := List.forall_mem_cons.1 hin
    have ih := ih hines fun a ha b hb => hone a (by simp [ha]) b (by simp [hb])
    rw [sendThrough]
    split
    · rename_i hacc
      refine (returns_close h.wired h.greedy h.advance (t := { t with state := e.target })
        ⟨hine, ht.stack, ht.calls, ht.greedy⟩ accepted f).bind ?_
      rintro ⟨matched, f'⟩ hf'
      dsimp only
      split
      · refine returns_pure (Fronts.Closed.congr (k := fronts) hf' fun x => ?_)
        refine ⟨fun hx => ⟨e, by simp, hacc, hx⟩, ?_⟩
        rintro ⟨e', he', hacc', rfl⟩
        rw [hone e (by simp) e' he' hacc hacc']
      · refine (ih f').imp fun r hr => ?_
        refine Fronts.Closed.congr (k := fronts)
          (Fronts.Closed.append (k := fronts) hf' hr) fun x => ?_
        simp [hacc]
    · rename_i hacc
      refine (ih f).imp fun r hr => Fronts.Closed.congr (k := fronts) hr fun x => ?_
      simp [hacc]

theorem Sends.alternative_eq (h : Sends net symbol t x) : x.alternative = t.alternative := by
  obtain ⟨_, _, _, _, _, _, rfl⟩ := h
  rfl

/-- A step gives the threads that wait after one more symbol, in the order of those before. -/
theorem returns_step (h : Searchable net) (hin : ∀ t ∈ threads, t.InRange net)
    (hordered : Ordered threads) (symbol : Int) :
    Returns (step net threads symbol) fun next => Ordered next.threads ∧
      ∀ x, x ∈ next.threads ↔
        (∃ t ∈ threads, ∃ y, Sends net symbol t y ∧ ReflTransGen (Moves net) y x) ∧
        Waits net x := by
  refine Returns.bind (P := fun r => Closed net (fun x => ∃ t ∈ threads, Sends net symbol t x)
    (none, {}) r ∧ Ordered r.2.threads) ((Fronts.returns_ordered_foldlM (Sends net symbol) (none,
    ({} : Front)) hordered (fun t _ y x hty hyx => ?_) fun t ht carried _ => ?_).imp fun r h =>
    ⟨h.1, h.2 _ rfl⟩)
    fun r ⟨hclosed, hsorted⟩ => returns_pure ⟨hsorted, fun x => ?_⟩
  · exact (alternative_of_reaches hyx).trans hty.alternative_eq
  · obtain ⟨matchedAlternative, front⟩ := carried
    dsimp only
    rw [(hin t ht).greedy, Bool.and_false]
    refine (returns_state (hin t ht).state).bind fun st hst => ?_
    split
    · exact returns_pure (.none fun x ⟨st', e, hst', hns, _⟩ => by simp_all)
    · rename_i hns
      have hns : st.isRuleStop = false := Bool.not_eq_true _ ▸ hns
      refine (returns_sendThrough h (hin t ht) _ (fun e he =>
        ((h.wired.within hst).followed e he).1) (fun e he e' he' hacc hacc' => ?_) front).bind
        fun r hr => returns_pure ?_
      · exact h.single hst he he' (Edge.isSilent_of_accepts hacc) (Edge.isSilent_of_accepts hacc')
      · refine Fronts.Closed.congr (k := fronts) hr fun x => ?_
        simp [Sends, hst, hns]
  · have hclosed : fronts.Closed (Moves net) (Waits net)
        (fun x => ∃ t ∈ threads, Sends net symbol t x) {} r.2 :=
      hclosed
    refine (hclosed.mem_listed rfl Front.not_seen_empty).trans (and_congr_left' ⟨?_, ?_⟩)
    · rintro ⟨y, ⟨t, ht, hty⟩, hyx⟩
      exact ⟨t, ht, y, hty, hyx⟩
    · rintro ⟨t, ht, y, hty, hyx⟩
      exact ⟨y, ⟨t, ht, hty⟩, hyx⟩

theorem Layer.step (h : Searchable net) (hl : Layer net mode w threads) (c : Char) :
    Returns (step net threads c.toNat) fun next => Layer net mode (w ++ [c]) next.threads := by
  refine (returns_step h (hl.inRange h.wired) hl.ordered c.toNat).imp fun next ⟨hordered, hmem⟩ =>
    ⟨fun x => ?_, hordered⟩
  rw [hmem]
  refine and_congr_left' ⟨?_, ?_⟩
  · rintro ⟨y, hy, z, hyz, hzx⟩
    obtain ⟨⟨t, ht, hty⟩, -⟩ := (hl.mem y).1 hy
    exact ⟨t, ht, becomes_concat_iff.2 ⟨y, z, hty, hyz, hzx⟩⟩
  · rintro ⟨t, ht, htx⟩
    obtain ⟨y, z, hty, hyz, hzx⟩ := becomes_concat_iff.1 htx
    exact ⟨y, (hl.mem y).2 ⟨⟨t, ht, hty⟩, hyz.waits h⟩, z, hyz, hzx⟩

theorem returns_start (h : Searchable net) (hmode : mode < net.modes.size) :
    Returns (start net mode) fun front => Layer net mode [] front.threads := by
  obtain ⟨s, hs⟩ : ∃ s, net.modes[mode]? = some s := ⟨_, Array.getElem?_eq_getElem hmode⟩
  obtain ⟨st, hst, -⟩ := h.wired.mode hs
  have hbegins {t : Thread} : Begins net mode t ↔
      ∃ a ∈ st.edges.zipIdx, t = { state := a.1.target, alternative := a.2 } := by
    constructor
    · rintro ⟨i, e, he, rfl⟩
      obtain ⟨s', st', hs', hst', hi⟩ := startEdge?_eq_some.1 he
      obtain rfl := Option.some.inj (hs.symm.trans hs')
      obtain rfl := Option.some.inj (hst.symm.trans hst')
      exact ⟨(e, i), List.mem_zipIdx_iff_getElem?.2 hi, rfl⟩
    · rintro ⟨⟨e, i⟩, ha, rfl⟩
      exact ⟨i, e, startEdge?_eq_some.2 ⟨s, st, hs, hst, List.mem_zipIdx_iff_getElem?.1 ha⟩, rfl⟩
  unfold start
  refine (returns_ofLookup (P := (· = s)) hs rfl).bind fun s' hs' => ?_
  subst hs'
  refine (returns_ofLookup (P := (· = st)) hst rfl).bind fun st' hst' => ?_
  subst hst'
  have hplaces : st'.edges.zipIdx.Pairwise fun a b => a.2 ≤ b.2 := by
    rw [← List.pairwise_map (f := Prod.snd) (R := (· ≤ ·)), List.zipIdx_map_snd]
    exact List.pairwise_le_range'
  refine Returns.imp (P := fun front => fronts.Closed (Moves net) (Waits net)
    (fun x => ∃ a ∈ st'.edges.zipIdx, x = { state := a.1.target, alternative := a.2 }) {} front ∧
    Ordered front.threads) ((Fronts.returns_ordered_foldlM (fun (a : Edge × Nat) x =>
    x = { state := a.1.target, alternative := a.2 }) ({} : Front) hplaces (fun a _ y x hy hyx => ?_)
    fun a ha front _ => ?_).imp fun front h => ⟨h.1, h.2 _ rfl⟩)
    fun front ⟨hclosed, hsorted⟩ => ⟨fun x => ?_, hsorted⟩
  · subst hy
    exact alternative_of_reaches hyx
  · dsimp only
    rw [h.greedy hst]
    refine (returns_close h.wired h.greedy h.advance ?_ false front).bind fun r hr =>
      returns_pure hr
    exact (hbegins.2 ⟨a, ha, rfl⟩).inRange h.wired
  · refine (hclosed.mem_listed rfl Front.not_seen_empty).trans (and_congr_left' ?_)
    simp only [becomes_nil_iff, hbegins]

end layers

section reading

theorem returns_isAccepting (ht : t.InRange net) :
    Returns (t.isAccepting net) fun b => b = true ↔ Accepting net t := by
  unfold Thread.isAccepting
  split
  · rename_i hstack
    refine (returns_state ht.state).bind fun st hst => returns_pure ?_
    rw [accepting_iff hst, List.isEmpty_iff.1 hstack]
    simp
  · rename_i hstack
    refine returns_pure ⟨nofun, fun h => absurd ?_ hstack⟩
    rw [h.1]
    rfl

/-- `rule` is that of the first start edge that matches the characters, if this edge leads into a
rule. -/
def Prefers (net : Network) (mode : Nat) (w : List Char) (rule : Nat) : Prop :=
  ∃ i e, IsLeast {i | Matches net mode i w} i ∧ startEdge? net mode i = some e ∧
    ∀ r, net.ownerOf e.target = some r → rule = r

theorem Layer.returns_matchOf (h : Searchable net) (hl : Layer net mode w f.threads) :
    Returns (matchOf net n f) fun found => (found = none → ∀ i, ¬ Matches net mode i w) ∧
      ∀ m, found = some m → m.length = n ∧ Prefers net mode w m.rule := by
  have haccepting {i : Nat} : Matches net mode i w ↔ ∃ x ∈ f.threads, x.alternative = i ∧
      Accepting net x := by
    rw [matches_iff]
    constructor
    · rintro ⟨t, x, ht, rfl, htx, hx⟩
      exact ⟨x, (hl.mem x).2 ⟨⟨t, ht, htx⟩, .inl hx⟩, htx.alternative_eq, hx⟩
    · rintro ⟨x, hx, rfl, hacc⟩
      obtain ⟨⟨t, ht, htx⟩, -⟩ := (hl.mem x).1 hx
      exact ⟨t, x, ht, htx.alternative_eq.symm, htx, hacc⟩
  unfold matchOf
  refine (returns_findM?_ordered hl.ordered fun x hx =>
    returns_isAccepting (hl.inRange h.wired x hx)).bind
    fun o ⟨hnone, hsome⟩ => ?_
  cases o with
  | none =>
    refine returns_pure ⟨fun _ i hi => ?_, nofun⟩
    obtain ⟨x, hx, -, hacc⟩ := haccepting.1 hi
    exact hnone rfl x hx hacc
  | some x =>
    obtain ⟨hx, hacc, hfirst⟩ := hsome x rfl
    refine (returns_state (hl.inRange h.wired x hx).state).bind fun st hst =>
      returns_pure ⟨nofun, ?_⟩
    intro m hm
    obtain rfl := Option.some.inj hm
    obtain ⟨⟨t, ⟨i, e, he, rfl⟩, htx⟩, -⟩ := (hl.mem x).1 hx
    refine ⟨rfl, i, e, ⟨haccepting.2 ⟨x, hx, htx.alternative_eq, hacc⟩, fun j hj => ?_⟩, he,
      fun r hr => ?_⟩
    · obtain ⟨u, hu, rfl, hacc'⟩ := haccepting.1 hj
      have hxi : x.alternative = i := htx.alternative_eq
      rcases hfirst u hu hacc' with rfl | hle
      · exact hxi.ge
      · exact hxi.ge.trans hle
    · have howner := htx.spells.ownerOf_bottom (h.keeps r) hr
      rw [Thread.spot, hacc.1] at howner
      have howner : net.ownerOf x.state = some r := howner
      rw [ownerOf_eq hst] at howner
      rw [howner]
      rfl

/-- `found` is the longest match among those of at most `n` characters. -/
structure Longest (net : Network) (mode : Nat) (text : List Char) (n : Nat) (found : Option Match) :
    Prop where
  absent : found = none → ∀ k ≤ n, 0 < k → ∀ i, ¬ Matches net mode i (text.take k)
  present : ∀ m, found = some m → 0 < m.length ∧ m.length ≤ n ∧
    Prefers net mode (text.take m.length) m.rule ∧
    ∀ k ≤ n, ∀ i, Matches net mode i (text.take k) → k ≤ m.length

theorem Longest.mono {n' : Nat} (hb : Longest net mode text n best) (hle : n ≤ n')
    (hno : ∀ k ≤ n', n < k → ∀ i, ¬ Matches net mode i (text.take k)) :
    Longest net mode text n' best where
  absent hn k hk hpos := by
    by_cases hkn : k ≤ n
    · exact hb.absent hn k hkn hpos
    · exact hno k hk (Nat.not_le.1 hkn)
  present m hm := by
    obtain ⟨hpos, hlen, hprefers, hmax⟩ := hb.present m hm
    refine ⟨hpos, hlen.trans hle, hprefers, fun k hk i hi => ?_⟩
    by_cases hkn : k ≤ n
    · exact hmax k hkn i hi
    · exact absurd hi (hno k hk (Nat.not_le.1 hkn) i)

theorem Longest.or (hb : Longest net mode text n best)
    (hnone : found = none → ∀ i, ¬ Matches net mode i (text.take (n + 1)))
    (hsome : ∀ m, found = some m → m.length = n + 1 ∧ Prefers net mode (text.take (n + 1)) m.rule) :
    Longest net mode text (n + 1) (found.or best) := by
  cases found with
  | none =>
    refine hb.mono (Nat.le_succ n) fun k hk hlt => ?_
    obtain rfl : k = n + 1 := by omega
    exact hnone rfl
  | some m =>
    obtain ⟨hlen, hprefers⟩ := hsome m rfl
    refine ⟨nofun, fun m' hm' => ?_⟩
    obtain rfl := Option.some.inj hm'
    exact ⟨by omega, by omega, hlen ▸ hprefers, fun k hk _ _ => by omega⟩

theorem returns_readOn (h : Searchable net) (hl : Layer net mode w threads)
    (hb : Longest net mode (w ++ rest) w.length best) :
    Returns (readOn net threads w.length best rest)
      (Longest net mode (w ++ rest) (w ++ rest).length) := by
  induction rest generalizing w threads best with
  | nil => exact returns_pure (by simpa using hb)
  | cons c rest ih =>
    rw [readOn]
    split
    · rename_i hempty
      refine returns_pure (hb.mono (by simp) fun k _ hlt i hi => ?_)
      obtain ⟨t, x, ht, -, hx, -⟩ := matches_iff.1 hi
      obtain ⟨d, rfl⟩ : ∃ d, k = w.length + (d + 1) := ⟨k - w.length - 1, by omega⟩
      rw [List.take_length_add_append, List.take_succ_cons] at hx
      obtain ⟨y, hy, hwaits⟩ := hx.exists_waits h
      have hmem := (hl.mem y).2 ⟨⟨t, ht, hy⟩, hwaits⟩
      rw [List.isEmpty_iff.1 hempty] at hmem
      cases hmem
    · refine (hl.step h c).bind fun front hfront =>
        (hfront.returns_matchOf h).bind fun found ⟨hnone, hsome⟩ => ?_
      have htext : w ++ c :: rest = (w ++ [c]) ++ rest := by simp
      have hlength : (w ++ [c]).length = w.length + 1 := by simp
      have htake : ((w ++ [c]) ++ rest).take (w.length + 1) = w ++ [c] := hlength ▸ List.take_left
      rw [htext] at hb ⊢
      rw [← hlength]
      refine ih hfront ?_
      rw [hlength]
      exact hb.or (htake.symm ▸ hnone) (htake.symm ▸ hsome)

theorem returns_longestMatch (h : Searchable net) (hmode : mode < net.modes.size)
    (text : List Char) :
    Returns (longestMatch net mode text) (Longest net mode text text.length) := by
  refine (returns_start h hmode).bind fun front hfront => ?_
  refine returns_readOn (w := []) h hfront ⟨fun _ k hk hpos => ?_, nofun⟩
  simp at hk
  omega

end reading

section loaded

/-- A state of no valid type takes input on one edge at most. Of other states a check sees to
this. -/
def InvalidTakesOne (net : Network) : Prop :=
  ∀ {s : Nat} {st : State} {e e' : Edge}, net.states[s]? = some st → st.kind = .invalid →
    e ∈ st.edges →
    e' ∈ st.edges → e.isSilent = false → e'.isSilent = false → e = e'

theorem loadWords_searchable {words : List Wire.Word} {options : LoadOptions}
    (hverify : options.verify = true) (hload : loadWords words options = .ok net)
    (hkind : net.kind = .lexer) (hgreedy : net.Greedy) (hadvance : net.ActionsAdvance)
    (hrules : ∀ r, net.KeepsTo State.edges (some r)) (hinvalid : InvalidTakesOne net) :
    Searchable net := by
  obtain ⟨hraw, -, hkeeps⟩ := loadWords_followed hload
  refine ⟨(loadWords_wired hload).1, hgreedy, hadvance, hraw,
    fun {s st e e'} hst he he' hloud hloud' => ?_, fun r => hkeeps hkind r (hrules r)⟩
  have he := hraw hst he hloud
  have he' := hraw hst he' hloud'
  by_cases hkind : st.kind = .invalid
  · exact hinvalid hst hkind he he' hloud hloud'
  · rw [(loadWords_checked hverify hload).edges_eq_of_loud hst (absurd · hkind) he hloud] at he'
    exact (List.mem_singleton.1 he').symm

/--
A loaded lexer finds a match exactly if some of the text in front of it matches; the match is the
longest, and its rule is that of the first start edge that has a match of this length. This is so
for a lexer without non-greedy decisions, in which no action is met again without input, rules keep
to themselves but for what they call, and states of no valid type do not choose between matches.
-/
theorem longestMatch_exact {words : List Wire.Word} {options : LoadOptions}
    (hverify : options.verify = true) (hload : loadWords words options = .ok net)
    (hkind : net.kind = .lexer) (hgreedy : net.Greedy) (hadvance : net.ActionsAdvance)
    (hrules : ∀ r, net.KeepsTo State.edges (some r)) (hinvalid : InvalidTakesOne net)
    (hmode : mode < net.modes.size) (text : List Char) :
    ∃ found, longestMatch net mode text = .ok found ∧
      (found = none ↔ ¬ ∃ n, 0 < n ∧ n ≤ text.length ∧ ∃ i, Matches net mode i (text.take n)) ∧
      ∀ m, found = some m →
        IsGreatest {n | 0 < n ∧ n ≤ text.length ∧ ∃ i, Matches net mode i (text.take n)} m.length ∧
        Prefers net mode (text.take m.length) m.rule := by
  have h := loadWords_searchable hverify hload hkind hgreedy hadvance hrules hinvalid
  obtain ⟨found, hfound, hlongest⟩ := returns_longestMatch h hmode text
  have hpresent {m : Match} (hm : found = some m) :
      IsGreatest {n | 0 < n ∧ n ≤ text.length ∧ ∃ i, Matches net mode i (text.take n)} m.length ∧
        Prefers net mode (text.take m.length) m.rule := by
    obtain ⟨hpos, hlength, hprefers, hmax⟩ := hlongest.present m hm
    obtain ⟨i, e, hleast, -⟩ := id hprefers
    exact ⟨⟨⟨hpos, hlength, i, hleast.1⟩, fun k ⟨_, hk, j, hj⟩ => hmax k hk j hj⟩, hprefers⟩
  refine ⟨found, hfound, ⟨fun hnone => ?_, fun hnot => ?_⟩, fun m hm => hpresent hm⟩
  · rintro ⟨k, hpos, hk, i, hi⟩
    exact hlongest.absent hnone k hk hpos i hi
  · cases hf : found with
    | none => rfl
    | some m => exact absurd ⟨_, (hpresent hf).1.1⟩ hnot

end loaded

section fixed

open Wire

theorem greedy_of_states (h : ∀ st ∈ net.states.toList, st.isNonGreedy = false) : net.Greedy :=
  forall_getElem?_iff.2 h

theorem actionsAdvance_of_stops (h : ∀ st ∈ net.states.toList, ∀ e ∈ st.followed, e.kind = .action →
    ∃ st' ∈ net.states[e.target]?, st'.isRuleStop = true) : net.ActionsAdvance := by
  intro s target rule st index contextual hst hns he hpath
  obtain ⟨st', hst', hstop⟩ := forall_getElem?_iff.2 h hst _ he rfl
  rcases ReflTransGen.cases_head hpath with heq | ⟨p, hslip, -⟩
  · obtain ⟨rfl, -⟩ := Prod.mk.inj heq
    obtain rfl := Option.some.inj (hst.symm.trans hst')
    simp [hstop] at hns
  · obtain ⟨q, rest, hstack, -⟩ := (slip_iff_of_stop hst' hstop).1 hslip
    cases hstack

theorem keepsTo_of_states
    (h : ∀ st ∈ net.states.toList, st.isRuleStop = false → ∀ r ∈ st.rule, ∀ e ∈ st.edges,
      net.ownerOf e.onward = some r) (r : Nat) : net.KeepsTo State.edges (some r) := by
  rintro s t ⟨st, hst, hns, e, he, rfl⟩ ho
  exact forall_getElem?_iff.2 h hst hns r ((ownerOf_eq hst).symm.trans ho) e he

theorem invalidTakesOne_of_states
    (h : ∀ st ∈ net.states.toList, st.kind = .invalid → ∀ e ∈ st.edges, ∀ e' ∈ st.edges,
      e.isSilent = false → e'.isSilent = false → e = e') : InvalidTakesOne net :=
  fun hst hkind he he' => forall_getElem?_iff.2 h hst hkind _ he _ he'

def lexerWords (states rules edges : List (List Word)) (decisions : List Word)
    (commands : List (List Word)) : List Word :=
  let counted (words : List (List Word)) := UInt16.ofNat words.length :: words.flatten
  shiftWords <| [3] ++ toWords identifierWords Version.newest.identifier ++ [0, 2] ++
    counted states ++ [0, 0] ++ counted rules ++ [1, 0, 0, 0] ++ counted edges ++
    UInt16.ofNat decisions.length :: decisions ++ counted commands

/-- The rule of the word `if`, and then the rule of words of small letters, which are skipped. -/
def keywordFirst : List Word :=
  lexerWords [[6, 0xFFFF], [2, 0], [7, 0], [2, 1], [7, 1], [1, 0], [1, 0], [4, 1, 9], [1, 1],
    [8, 1], [11, 1], [12, 1, 10], [1, 1]] [[1, 1], [3, 2]]
    [eps 0 1, eps 0 3, eps 1 5, atom 5 6 105, atom 6 2 102, eps 3 7, eps 7 8, [8, 9, 2, 97, 122, 0],
      eps 9 10, eps 10 7, eps 10 11, eps 11 12, [12, 4, 6, 1, 0, 0]] [0, 7, 10] [[6, 0, 0]]

theorem longestMatch_keywordFirst : ∃ net, loadWords keywordFirst { optimize := false } = .ok net ∧
    net.kind = .lexer ∧ net.Greedy ∧ net.ActionsAdvance ∧ (∀ r, net.KeepsTo State.edges (some r)) ∧
    InvalidTakesOne net ∧ 0 < net.modes.size ∧ ∃ found, longestMatch net 0 ['i', 'f'] = .ok found ∧
      ∀ m, found = some m →
        IsGreatest {n | 0 < n ∧ n ≤ 2 ∧ ∃ i, Matches net 0 i (['i', 'f'].take n)} m.length ∧
        Prefers net 0 (['i', 'f'].take m.length) m.rule := by
  have hload : loadWords keywordFirst { optimize := false } = .ok (loaded keywordFirst) :=
    loadWords_loaded (by decide +kernel)
  have hkind : (loaded keywordFirst).kind = .lexer := by decide +kernel
  have hgreedy : (loaded keywordFirst).Greedy := greedy_of_states (by decide +kernel)
  have hadvance : (loaded keywordFirst).ActionsAdvance :=
    actionsAdvance_of_stops (by decide +kernel)
  have hrules : ∀ r, (loaded keywordFirst).KeepsTo State.edges (some r) :=
    keepsTo_of_states (by decide +kernel)
  have hinvalid : InvalidTakesOne (loaded keywordFirst) :=
    invalidTakesOne_of_states (by decide +kernel)
  have hmode : 0 < (loaded keywordFirst).modes.size := by decide +kernel
  obtain ⟨found, hfound, -, hexact⟩ :=
    longestMatch_exact rfl hload hkind hgreedy hadvance hrules hinvalid hmode ['i', 'f']
  exact ⟨_, hload, hkind, hgreedy, hadvance, hrules, hinvalid, hmode, found, hfound, hexact⟩

example : longestMatch (loaded keywordFirst) 0 ['i', 'f'] = .ok
  (some { length := 2, rule := 0, commands := [] }) ∧
    longestMatch (loaded keywordFirst) 0 ['i', 'f', 's'] =
      .ok (some { length := 3, rule := 1, commands := [0] }) := by decide +kernel

/-- State 3, of no valid type, takes the same character on two edges. One leads to the end of the
rule. -/
def invalidBranch : List Word :=
  lexerWords [[6, 0xFFFF], [2, 0], [7, 0], [0], [1, 0], [1, 0]] [[1, 1]]
    [eps 0 3, eps 1 4, atom 3 4 97, atom 3 5 97, eps 4 2, atom 5 2 98] [0] []

/-- The first rule calls the third and goes on at the end of the second. -/
def strayCall : List Word :=
  lexerWords [[6, 0xFFFF], [2, 0], [7, 0], [2, 1], [7, 1], [2, 2], [7, 2]] [[1, 1], [3, 2], [5, 0]]
    [eps 0 1, callOf 1 4 5 2, eps 3 4, atom 5 6 97] [0] []

/-- The words load as a lexer without actions and non-greedy decisions, and edges that are not calls
stay in their rule. -/
def LoadsPlain (words : List Word) : Prop :=
  loadWords words { optimize := false } = .ok (loaded words) ∧ (loaded words).kind = .lexer ∧
    (loaded words).Greedy ∧
    (∀ st ∈ (loaded words).states.toList, ∀ e ∈ st.edges, e.kind ≠ .action) ∧
    (loaded words).StaysInRules

/-- If a state of no valid type chooses between matches, the longer one may be lost; and if a call
goes on in another rule, the match is that rule's. -/
theorem longestMatch_not_exact :
    (LoadsPlain invalidBranch ∧ Matches (loaded invalidBranch) 0 0 ['a', 'b'] ∧
      longestMatch (loaded invalidBranch) 0 ['a', 'b'] =
      .ok (some { length := 1, rule := 0, commands := [] })) ∧
    LoadsPlain strayCall ∧ IsLeast {i | Matches (loaded strayCall) 0 i ['a']} 0 ∧
      startEdge? (loaded strayCall) 0 0 = some (.plain 1) ∧ (loaded strayCall).ownerOf 1 = some 0 ∧
      longestMatch (loaded strayCall) 0 ['a'] =
      .ok (some { length := 1, rule := 1, commands := [] }) := by
  constructor
  · obtain ⟨s3, hs3, hn3, he3⟩ : ∃ st ∈ (loaded invalidBranch).states[3]?, st.isRuleStop = false ∧
        .atom 5 97 ∈ st.followed := by decide +kernel
    obtain ⟨s5, hs5, hn5, he5⟩ : ∃ st ∈ (loaded invalidBranch).states[5]?, st.isRuleStop = false ∧
        .atom 2 98 ∈ st.followed := by decide +kernel
    obtain ⟨s2, hs2, ht2⟩ : ∃ st ∈ (loaded invalidBranch).states[2]?, st.isRuleStop = true := by
      decide +kernel
    have hedge : startEdge? (loaded invalidBranch) 0 0 = some (.plain 3) := by decide +kernel
    have hpath : Spells (loaded invalidBranch) (3, []) ['a', 'b'] (2, []) :=
      .read (.read .refl hs3 hn3 he3 (by decide)) hs5 hn5 he5 (by decide)
    refine ⟨⟨loadWords_loaded (by decide +kernel), by decide +kernel,
      greedy_of_states (by decide +kernel), ?_⟩,
      ⟨_, 2, s2, hedge, hpath, hs2, ht2⟩, ?_⟩
    all_goals decide +kernel
  · obtain ⟨s1, hs1, hn1, c, hc1, hstart, hfollow⟩ : ∃ st ∈ (loaded strayCall).states[1]?,
        st.isRuleStop = false ∧
        ∃ c ∈ st.followed.filterMap Edge.call?, c.start = 5 ∧ c.follow = 4 := by decide +kernel
    obtain ⟨s5, hs5, hn5, he5⟩ : ∃ st ∈ (loaded strayCall).states[5]?, st.isRuleStop = false ∧
        .atom 6 97 ∈ st.followed := by decide +kernel
    obtain ⟨s6, hs6, ht6⟩ : ∃ st ∈ (loaded strayCall).states[6]?, st.isRuleStop = true := by
      decide +kernel
    obtain ⟨s4, hs4, ht4⟩ : ∃ st ∈ (loaded strayCall).states[4]?, st.isRuleStop = true := by
      decide +kernel
    have hedge : startEdge? (loaded strayCall) 0 0 = some (.plain 1) := by decide +kernel
    obtain ⟨e, he, hcall⟩ := List.mem_filterMap.1 hc1
    obtain rfl := Edge.call?_eq_some.1 hcall
    have henter : (loaded strayCall).Slip State.followed Shallow (1, []) (5, [4]) := by
      rw [← hstart, ← hfollow]
      exact .enter hs1 hn1 he (Nat.zero_lt_succ _)
    have hpath : Spells (loaded strayCall) (1, []) ['a'] (4, []) :=
      .slip (.read (.slip .refl henter) hs5 hn5 he5 (by decide)) (.back hs6 ht6)
    refine ⟨⟨loadWords_loaded (by decide +kernel), by decide +kernel,
      greedy_of_states (by decide +kernel), ?_⟩,
      ⟨⟨_, 4, s4, hedge, hpath, hs4, ht4⟩, fun _ _ => Nat.zero_le _⟩, hedge, ?_⟩
    all_goals decide +kernel

end fixed

end GrammarWalk.Tokenizer
