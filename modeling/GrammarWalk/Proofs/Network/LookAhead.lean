import GrammarWalk.Network.LookAhead
import GrammarWalk.Proofs.Network.Path
import GrammarWalk.Proofs.Network.InRange
import GrammarWalk.Proofs.Search
import GrammarWalk.SymbolSet.Lemmas
import Mathlib.Algebra.Order.BigOperators.Group.List
import Mathlib.Data.Fintype.BigOperators
import Mathlib.Data.Set.Card
import Mathlib.Tactic.Ring

/-! What a look-ahead finds. Its search does not enter a rule again that it is inside of, so it
comes to an end; it finds everything if no rule comes back to itself without input. -/

namespace GrammarWalk

theorem Edge.accepts_iff {e : Edge} {v lo hi : Int} :
    e.accepts v lo hi = true ↔ ∃ symbols, e.accepted? lo hi = some symbols ∧ v ∈ symbols := by
  have hcontains (s : SymbolSet) : s.contains v = true ↔ v ∈ s := Iff.rfl
  cases e with
  | atom _ s => simpa [accepts, accepted?, label?] using eq_comm
  | notSet _ s => simp [accepts, accepted?, ← Bool.not_eq_true, hcontains, and_assoc]
  | set _ s => simp [accepts, accepted?, label?, hcontains]
  | _ => simp [accepts, accepted?, label?]

namespace Network

variable {net : Network} {s t q : Nat} {stack : List Nat} {p p' : Spot}
  {look look' look'' : LookAhead}
  {st : State} {c : Call} {e : Edge} {v : Int}

/-- What the search of a look-ahead takes for granted: references are in range, no label holds the
mark of the end of a rule, a call enters the rule that it names, and other than by calls and at its
stop no rule is left. -/
structure Orderly (net : Network) : Prop where
  within : ∀ {s : Nat} {st : State}, net.states[s]? = some st →
    ∀ e ∈ st.edges, e.Within net.states.size
  unmarked : ∀ {s : Nat} {st : State}, net.states[s]? = some st → ∀ e ∈ st.edges, ∀ symbols,
    e.label? = some symbols → Symbol.ruleEnd ∉ symbols
  call : ∀ {s : Nat} {st : State} {c : Call}, net.states[s]? = some st → .call c ∈ st.edges →
    net.ownerOf c.start = some c.rule
  inside : ∀ {s : Nat} {st : State} {e : Edge}, net.states[s]? = some st → st.isRuleStop = false →
    e ∈ st.edges →
    net.ownerOf e.onward = st.rule

/-- The paths that a look-ahead is about: any number of calls may be open on them. -/
abbrev Reaches (net : Network) : Spot → Spot → Prop := net.Slips State.edges Free

/-- The token `v` is matched by an edge that a path without input leads to. -/
def Offers (net : Network) (p : Spot) (v : Int) : Prop :=
  ∃ (s : Nat) (stack : List Nat) (st : State) (e : Edge), net.Reaches p (s, stack) ∧
    net.states[s]? = some st ∧ st.isRuleStop = false ∧ e ∈ st.edges ∧
    e.accepts v Symbol.minToken net.maxToken = true

/-- A path without input leads to the end of a rule of `o`, and all calls have come back. -/
def Finishes (net : Network) (p : Spot) (o : Option Nat) : Prop :=
  ∃ (s : Nat) (st : State), net.Reaches p (s, []) ∧ net.states[s]? = some st ∧
    st.isRuleStop = true ∧
    st.rule = o

/-- No rule is called again before it has taken input. -/
def NoLeftRecursion (net : Network) : Prop :=
  ∀ {s : Nat} {st : State} {c : Call}, net.states[s]? = some st → st.isRuleStop = false →
    .call c ∈ st.edges →
    ∀ {t : Nat} {stack : List Nat} {st' : State} {c' : Call}, net.Reaches (c.start, []) (t, stack) →
      net.states[t]? = some st' → st'.isRuleStop = false → .call c' ∈ st'.edges → c'.rule ≠ c.rule

section search

/-- The calls that a look-ahead makes: those of rules that it is not inside of. -/
def Fresh (net : Network) (p : Spot) (c : Call) : Prop := some c.rule ∉ net.inside p.1 p.2

/-- What a look-ahead finds at a spot. -/
def Yields (net : Network) (p : Spot) (v : Int) : Prop :=
  ∃ st, net.states[p.1]? = some st ∧ ((st.isRuleStop = true ∧ p.2 = [] ∧ v = Symbol.ruleEnd) ∨
    (st.isRuleStop = false ∧ ∃ e ∈ st.edges, e.accepts v Symbol.minToken net.maxToken = true))

/-- A spot that a look-ahead can come to: it is inside of no rule twice. -/
structure Nested (net : Network) (p : Spot) : Prop where
  state : p.1 < net.states.size
  stack : ∀ q ∈ p.2, q < net.states.size
  nodup : (net.inside p.1 p.2).Nodup
  called : ∀ o ∈ net.inside p.1 p.2, ∃ (s : Nat) (st : State) (c : Call), net.states[s]? = some st ∧
    .call c ∈ st.edges ∧ o = some c.rule

theorem inside_enter (h : net.Orderly) (hs : net.states[s]? = some st) (hns : st.isRuleStop = false)
    (hc : .call c ∈ st.edges) :
    net.inside c.start (c.follow :: stack) = some c.rule :: net.inside s stack := by
  rw [inside, h.call hs hc]
  exact congrArg _ (inside_congr ((h.inside hs hns hc).trans (ownerOf_eq hs).symm))

theorem inside_silent (h : net.Orderly) (hs : net.states[s]? = some st)
    (hns : st.isRuleStop = false) (he : e ∈ st.edges) (hcall : e.call? = none) :
    net.inside e.target stack = net.inside s stack := by
  refine inside_congr
    ((congrArg net.ownerOf ?_).trans ((h.inside hs hns he).trans (ownerOf_eq hs).symm))
  exact (Edge.onward_of_call?_eq_none hcall).symm

theorem Nested.slip (hp : net.Nested p) (h : net.Orderly)
    (hslip : net.Slip State.edges net.Fresh p p') : net.Nested p' := by
  obtain ⟨hstate, hstack, hnodup, hcalled⟩ := hp
  cases hslip with
  | back =>
    rw [List.forall_mem_cons] at hstack
    exact ⟨hstack.1, hstack.2, (List.nodup_cons.1 hnodup).2, (List.forall_mem_cons.1 hcalled).2⟩
  | @enter s stack st c hs hns hc hfresh =>
    obtain ⟨hstart, hfollow⟩ := h.within hs _ hc
    refine ⟨hstart, List.forall_mem_cons.2 ⟨hfollow c rfl, hstack⟩, ?_, ?_⟩
    · rw [inside_enter h hs hns hc]
      exact List.nodup_cons.2 ⟨hfresh, hnodup⟩
    · rw [inside_enter h hs hns hc, List.forall_mem_cons]
      exact ⟨⟨s, st, c, hs, hc, rfl⟩, hcalled⟩
  | @silent s stack st e hs hns he hsil hcall =>
    have hin : net.inside e.target stack = net.inside s stack := inside_silent h hs hns he hcall
    exact ⟨(h.within hs _ he).1, hstack, hin ▸ hnodup, hin ▸ hcalled⟩

def LookAhead.Remembers (net : Network) (look : LookAhead) (p : Spot) : Prop :=
  ∀ r, r ∈ look.called ↔ some r ∈ net.inside p.1 p.2

/-- A search was started at `roots` and came back. It found, besides what is `own` to where it
started from, what the spots it has newly seen yield. -/
def Looked (net : Network) (roots : Spot → Prop) (own : Int → Prop) (look look' : LookAhead) :
    Prop :=
  (∃ l, Searched (net.Slip State.edges net.Fresh) (fun _ => True) roots (· ∈ look.busy)
    (· ∈ look'.busy) l ∧
    ∀ v, v ∈ look'.found ↔ v ∈ look.found ∨ own v ∨ ∃ p ∈ l, net.Yields p v) ∧
  ∀ r, r ∈ look'.called ↔ r ∈ look.called

variable {roots roots' : Spot → Prop} {own own' : Int → Prop}

theorem Looked.busy (h : net.Looked roots own look look') (hp : p ∈ look.busy) :
    p ∈ look'.busy := by
  obtain ⟨⟨_, h, -⟩, -⟩ := h
  exact h.grows p hp

theorem Looked.none (hroots : ∀ p, ¬ roots p) (hown : ∀ v, ¬ own v) :
    net.Looked roots own look look :=
  ⟨⟨[], .none hroots, fun v => by simp [hown]⟩, fun _ => Iff.rfl⟩

theorem Looked.seen (hp : p ∈ look.busy) : net.Looked (· = p) (fun _ => False) look look :=
  ⟨⟨[], .seen hp, fun v => by simp⟩, fun _ => Iff.rfl⟩

theorem Looked.append (h : net.Looked roots own look look')
    (h' : net.Looked roots' own' look' look'') :
    net.Looked (fun p => roots p ∨ roots' p) (fun v => own v ∨ own' v) look look'' := by
  obtain ⟨⟨l, hl, hfound⟩, hcalled⟩ := h
  obtain ⟨⟨l', hl', hfound'⟩, hcalled'⟩ := h'
  refine ⟨⟨l ++ l', hl.append hl', fun v => ?_⟩, fun r => (hcalled' r).trans (hcalled r)⟩
  rw [hfound', hfound]
  simp only [List.mem_append, or_and_right, exists_or, or_assoc, or_left_comm (b := own' v)]

theorem Looked.congr (h : net.Looked roots own look look') (hr : ∀ p, roots p ↔ roots' p)
    (ho : ∀ v, own v ↔ own' v) : net.Looked roots' own' look look' := by
  obtain rfl : roots = roots' := funext fun p => propext (hr p)
  obtain rfl : own = own' := funext fun v => propext (ho v)
  exact h

theorem Looked.visit (hp : p ∉ look.busy)
    (h : net.Looked (net.Slip State.edges net.Fresh p) (net.Yields p)
      { look with busy := p :: look.busy } look') :
    net.Looked (· = p) (fun _ => False) look look' := by
  obtain ⟨⟨l, hl, hfound⟩, hcalled⟩ := h
  have hbusy : (· ∈ ({ look with busy := p :: look.busy } : LookAhead).busy) = fun x => x = p ∨
      x ∈ look.busy :=
    funext fun x => propext List.mem_cons
  rw [hbusy] at hl
  refine ⟨⟨_, hl.visit hp, fun v => ?_⟩, hcalled⟩
  simp [hfound]

theorem returns_looked_foldlM {g : LookAhead → Edge → Except Fault LookAhead} {l : List Edge}
    (roots : Edge → Spot → Prop) (own : Edge → Int → Prop) (look : LookAhead)
    (hg : ∀ e ∈ l, ∀ look', (∀ p ∈ look.busy, p ∈ look'.busy) → (∀ r, r ∈ look'.called ↔
      r ∈ look.called) → Returns (g look' e) (net.Looked (roots e) (own e) look')) :
    Returns (l.foldlM g look)
      (net.Looked (fun p => ∃ e ∈ l, roots e p) (fun v => ∃ e ∈ l, own e v) look) := by
  induction l generalizing look with
  | nil => exact returns_pure (.none (by simp) (by simp))
  | cons e l ih =>
    rw [List.foldlM_cons]
    refine (hg e (by simp) look (fun _ => id) fun _ => Iff.rfl).bind fun look₁ h₁ => ?_
    refine (ih look₁ fun e' he' look₂ hbusy hcalled => ?_).imp fun look₃ h₃ => ?_
    · exact hg e' (by simp [he']) look₂ (fun p hp => hbusy p (h₁.busy hp)) fun r =>
        (hcalled r).trans (h₁.2 r)
    · exact (h₁.append h₃).congr (fun p => by simp) (fun v => by simp)

/-- From every spot one move away, a search with this fuel comes back. -/
def LooksOn (net : Network) (fuel : Nat) (p : Spot) (look : LookAhead) : Prop :=
  ∀ p' look', net.Slip State.edges net.Fresh p p' → (∀ x, x = p ∨ x ∈ look.busy → x ∈ look'.busy) →
    look'.Remembers net p' → Returns (net.lookFrom fuel p'.1 p'.2 look')
    (net.Looked (· = p') (fun _ => False) look')

theorem returns_lookFrom_stop {fuel : Nat} (hp : net.Nested (s, q :: stack))
    (hs : net.states[s]? = some st)
    (ht : st.isRuleStop = true) (hrem : look.Remembers net (s, q :: stack))
    (hnext : net.LooksOn fuel (s, q :: stack) look) :
    Returns (do
      let look' ← net.lookFrom fuel q stack { look with
        busy := (s, q :: stack) :: look.busy
        called := st.rule.elim look.called fun r => look.called.filter (· ≠ r) }
      return { look' with called := st.rule.elim look'.called fun r => look'.called.insert r })
      (net.Looked (· = (q, stack)) (fun _ => False)
          { look with busy := (s, q :: stack) :: look.busy }) := by
  have hin : net.inside s (q :: stack) = st.rule :: net.inside q stack := by
    rw [inside, ownerOf_eq hs]
  obtain ⟨-, -, hnodup, hcalls⟩ := hp
  rw [show net.inside (s, q :: stack).1 (s, q :: stack).2 = _ from hin] at hnodup hcalls
  obtain ⟨u, ut, c, -, -, hrule⟩ := hcalls _ List.mem_cons_self
  rw [hrule] at hnodup hin ⊢
  have hmem (r : Nat) : r ∈ look.called ↔ r = c.rule ∨ some r ∈ net.inside q stack := by
    rw [hrem, show net.inside (s, q :: stack).1 (s, q :: stack).2 = _ from hin]
    simp
  have hnot : some c.rule ∉ net.inside q stack := (List.nodup_cons.1 hnodup).1
  refine (hnext (q, stack) _ (.back hs ht) (fun x hx => List.mem_cons.2 hx) fun r => ?_).bind
    fun look' h => returns_pure ?_
  · simp only [Option.elim, List.mem_filter, hmem, ne_eq, decide_eq_true_eq]
    constructor
    · rintro ⟨h, hne⟩
      exact h.resolve_left hne
    · exact fun h => ⟨.inr h, fun hr => hnot (hr ▸ h)⟩
  · obtain ⟨hsearch, hcalled⟩ := h
    refine ⟨hsearch, fun r => ?_⟩
    simp only [Option.elim, List.mem_insert_iff, hcalled, List.mem_filter, hmem, ne_eq,
      decide_eq_true_eq]
    constructor
    · rintro (rfl | ⟨h, -⟩)
      · exact .inl rfl
      · exact h
    · exact fun h => (em (r = c.rule)).imp_right fun hne => ⟨h, hne⟩

def lookAlong (net : Network) (fuel : Nat) (stack : List Nat) (look : LookAhead) (e : Edge) :
    Except Fault LookAhead :=
  match e with
  | .call c =>
    if look.called.contains c.rule then return look
    else do
      let look ← net.lookFrom fuel c.start (c.follow :: stack)
        { look with called := c.rule :: look.called }
      return { look with called := look.called.filter (· ≠ c.rule) }
  | .epsilon .. | .predicate .. | .precedence .. | .action .. =>
    net.lookFrom fuel e.target stack look
  | .atom .. | .range .. | .set .. | .notSet .. | .wildcard .. =>
    match e.accepted? Symbol.minToken net.maxToken with
    | some symbols => return { look with found := look.found ∪ symbols }
    | none => return look

/-- The spot that an edge without input leads a search to. -/
def Turns (net : Network) (s : Nat) (stack : List Nat) (e : Edge) (p : Spot) : Prop :=
  (∃ c, e = .call c ∧ net.Fresh (s, stack) c ∧ p = (c.start, c.follow :: stack)) ∨
  (e.isSilent = true ∧ e.call? = none ∧ p = (e.target, stack))

theorem exists_turns_iff (hs : net.states[s]? = some st) (hns : st.isRuleStop = false) :
    (∃ e ∈ st.edges, net.Turns s stack e p) ↔ net.Slip State.edges net.Fresh (s, stack) p := by
  rw [slip_iff_along hs hns]
  constructor
  · rintro ⟨e, he, ⟨c, rfl, hfresh, rfl⟩ | ⟨hsil, hcall, rfl⟩⟩
    · exact .inl ⟨c, he, hfresh, rfl⟩
    · exact .inr ⟨e, he, hsil, hcall, rfl⟩
  · rintro (⟨c, hc, hfresh, rfl⟩ | ⟨e, he, hsil, hcall, rfl⟩)
    · exact ⟨_, hc, .inl ⟨c, rfl, hfresh, rfl⟩⟩
    · exact ⟨e, he, .inr ⟨hsil, hcall, rfl⟩⟩

theorem turns_call : net.Turns s stack (.call c) p ↔
    net.Fresh (s, stack) c ∧ p = (c.start, c.follow :: stack) := by
  simp [Turns, Edge.call?]

theorem turns_silent (hsil : e.isSilent = true) (hcall : e.call? = none) :
    net.Turns s stack e p ↔ p = (e.target, stack) := by
  have hne (c : Call) : e ≠ .call c := fun hc => by simp [hc, Edge.call?] at hcall
  simp [Turns, hne, hsil, hcall]

theorem not_turns (hloud : e.isSilent = false) : ¬ net.Turns s stack e p := by
  rintro (⟨c, rfl, -⟩ | ⟨hsil, -⟩)
  · cases hloud
  · simp [hloud] at hsil

/-- A call is made unless the search is inside of its rule, and is forgotten when the search is
back. -/
theorem returns_lookAlong_call {fuel : Nat} (h : net.Orderly) (hs : net.states[s]? = some st)
    (hns : st.isRuleStop = false) (hc : .call c ∈ st.edges) (hrem : look'.Remembers net (s, stack))
    (hgrows : ∀ x, x = (s, stack) ∨ x ∈ look.busy → x ∈ look'.busy)
    (hnext : net.LooksOn fuel (s, stack) look) :
    Returns (net.lookAlong fuel stack look' (.call c))
      (net.Looked (net.Turns s stack (.call c)) (fun _ => False) look') := by
  unfold lookAlong
  dsimp only
  split
  · rename_i hcontains
    have hin : some c.rule ∈ net.inside s stack := (hrem _).1 (List.contains_iff_mem.1 hcontains)
    exact returns_pure (.none (fun x hx => (turns_call.1 hx).1 hin) fun _ => id)
  · rename_i hcontains
    have hfresh : net.Fresh (s, stack) c :=
      fun hin => hcontains (List.contains_iff_mem.2 ((hrem _).2 hin))
    have hin : net.inside c.start (c.follow :: stack) = some c.rule :: net.inside s stack :=
      inside_enter h hs hns hc
    refine (hnext (c.start, c.follow :: stack) { look' with called := c.rule :: look'.called }
      (.enter hs hns hc hfresh) hgrows fun r => ?_).bind fun look'' h'' => returns_pure ?_
    · simp [hin, hrem r]
    · obtain ⟨hsearch, hcalled⟩ := h''
      have hback : net.Looked (· = (c.start, c.follow :: stack)) (fun _ => False) look'
          { look'' with called := look''.called.filter (· ≠ c.rule) } := by
        refine ⟨hsearch, fun r => ?_⟩
        simp only [List.mem_filter, hcalled, List.mem_cons, ne_eq, decide_eq_true_eq]
        constructor
        · exact fun ⟨hor, hne⟩ => hor.resolve_left hne
        · exact fun hr => ⟨.inr hr, fun heq => hfresh ((hrem _).1 (heq ▸ hr))⟩
      exact hback.congr (fun x => (turns_call.trans (and_iff_right hfresh)).symm) fun _ => Iff.rfl

/-- The search along an edge looks behind it if it takes no input, and finds what it matches. -/
theorem returns_lookAlong {fuel : Nat} (h : net.Orderly) (hs : net.states[s]? = some st)
    (hns : st.isRuleStop = false) (he : e ∈ st.edges) (hrem : look'.Remembers net (s, stack))
    (hgrows : ∀ x, x = (s, stack) ∨ x ∈ look.busy → x ∈ look'.busy)
    (hnext : net.LooksOn fuel (s, stack) look) :
    Returns (net.lookAlong fuel stack look' e) (net.Looked (net.Turns s stack e)
      (fun v => e.accepts v Symbol.minToken net.maxToken = true) look') := by
  have silent (hsil : e.isSilent = true) (hcall : e.call? = none) :
      Returns (net.lookFrom fuel e.target stack look') (net.Looked (net.Turns s stack e)
        (fun v => e.accepts v Symbol.minToken net.maxToken = true) look') := by
    have hin : net.inside e.target stack = net.inside s stack := inside_silent h hs hns he hcall
    refine (hnext (e.target, stack) look' (.silent hs hns he hsil hcall) hgrows fun r => ?_).imp
      fun look'' h'' => h''.congr (fun x => (turns_silent hsil hcall).symm) fun v => ?_
    · rw [hin]
      exact hrem r
    · simp [Edge.not_accepts_of_isSilent hsil]
  have matching (hloud : e.isSilent = false) :
      Returns (match e.accepted? Symbol.minToken net.maxToken with
        | some symbols => pure { look' with found := look'.found ∪ symbols }
        | none => pure look' : Except Fault LookAhead) (net.Looked (net.Turns s stack e)
        (fun v => e.accepts v Symbol.minToken net.maxToken = true) look') := by
    cases hsymbols : e.accepted? Symbol.minToken net.maxToken with
    | none =>
      refine returns_pure (.none (fun _ => not_turns hloud) fun v => ?_)
      simp [Edge.accepts_iff, hsymbols]
    | some symbols =>
      refine returns_pure ⟨⟨[], .none fun _ => not_turns hloud, fun v => ?_⟩, fun _ => Iff.rfl⟩
      simp [Edge.accepts_iff, hsymbols]
  cases e with
  | call c =>
    refine (returns_lookAlong_call h hs hns he hrem hgrows hnext).imp fun look'' h'' => ?_
    exact h''.congr (fun _ => Iff.rfl) fun v => by simp [Edge.accepts]
  | epsilon | predicate | precedence | action => exact silent rfl rfl
  | atom | range | set | notSet | wildcard => exact matching rfl

theorem returns_lookFrom_succ {fuel : Nat} (h : net.Orderly) (hp : net.Nested p)
    (hbusy : p ∉ look.busy) (hrem : look.Remembers net p) (hnext : net.LooksOn fuel p look) :
    Returns (net.lookFrom (fuel + 1) p.1 p.2 look) (net.Looked (· = p) (fun _ => False) look) := by
  obtain ⟨s, stack⟩ := p
  unfold lookFrom
  rw [if_neg (by simpa using hbusy)]
  refine (returns_state hp.state).bind fun st hs => ?_
  split
  · rename_i hstop
    have hslip (x : Spot) : net.Slip State.edges net.Fresh (s, stack) x ↔ _ :=
      slip_iff_of_stop hs hstop
    cases stack with
    | nil =>
      refine returns_pure (.visit hbusy ⟨⟨[], .none fun x => ?_, fun v => ?_⟩, fun _ => Iff.rfl⟩)
      · simp [hslip]
      · simp [Yields, hs, hstop, or_comm]
    | cons q rest =>
      refine (returns_lookFrom_stop hp hs hstop hrem hnext).imp fun look' h' => ?_
      refine .visit hbusy (h'.congr (fun x => ?_) fun v => ?_)
      · simp [hslip]
      · simp [Yields, hs, hstop]
  · rename_i hns
    have hns : st.isRuleStop = false := Bool.not_eq_true _ ▸ hns
    have hedges : Returns
      (st.edges.foldlM (net.lookAlong fuel stack) { look with busy := (s, stack) :: look.busy })
        (net.Looked (net.Slip State.edges net.Fresh (s, stack)) (net.Yields (s, stack))
          { look with busy := (s, stack) :: look.busy }) := by
      refine (returns_looked_foldlM (net.Turns s stack) (fun e v =>
          e.accepts v Symbol.minToken net.maxToken = true) _ fun e he look' hgrows hsame => ?_).imp
          fun look' h' =>
          h'.congr (fun x => exists_turns_iff hs hns) fun v => by simp [Yields, hs, hns]
      exact returns_lookAlong h hs hns he (fun r => (hsame r).trans (hrem r))
        (fun x hx => hgrows x (List.mem_cons.2 hx)) hnext
    exact hedges.imp fun look' h' => .visit hbusy h'

/-- The spots that a search can come to and has not seen. -/
def unvisited (net : Network) (look : LookAhead) : Set Spot := {p | net.Nested p ∧ p ∉ look.busy}

theorem returns_lookFrom_of_unvisited (h : net.Orderly) (hfin : {p | net.Nested p}.Finite)
    {fuel : Nat} :
    ∀ {p : Spot} {look : LookAhead}, net.Nested p → look.Remembers net p →
      (net.unvisited look).ncard < fuel →
      Returns (net.lookFrom fuel p.1 p.2 look) (net.Looked (· = p) (fun _ => False) look) := by
  induction fuel with
  | zero => exact fun _ _ h => nomatch h
  | succ fuel ih =>
    intro p look hp hrem hfuel
    by_cases hbusy : p ∈ look.busy
    · unfold lookFrom
      rw [if_pos (by simpa using hbusy)]
      exact returns_pure (.seen hbusy)
    · refine returns_lookFrom_succ h hp hbusy hrem fun p' look' hslip hgrows hrem' =>
        ih (hp.slip h hslip) hrem' ?_
      have : (net.unvisited look').ncard < (net.unvisited look).ncard :=
        ncard_unseen_lt hfin hgrows hp hbusy
      omega

end search

section bound

theorem length_inside : (net.inside s stack).length = stack.length := by
  induction stack generalizing s with
  | nil => rfl
  | cons q stack ih => exact congrArg (· + 1) ih

theorem Nested.length_le (hp : net.Nested p) : p.2.length ≤ net.edgeCount := by
  have hsub : net.inside p.1 p.2 ⊆ (net.states.toList.flatMap (·.edges)).map fun e =>
      e.call?.map (·.rule) := by
    intro o ho
    obtain ⟨s, st, c, hs, hc, rfl⟩ := hp.called o ho
    refine List.mem_map.2 ⟨_, List.mem_flatMap.2 ⟨st, ?_, hc⟩, rfl⟩
    exact Array.mem_toList_iff.2 (Array.mem_of_getElem? hs)
  calc p.2.length = (net.inside p.1 p.2).length := length_inside.symm
    _ ≤ _ := (hp.nodup.subperm hsub).length_le
    _ = (net.states.toList.map (·.edges.length)).sum := by rw [List.length_map, List.length_flatMap]
    _ ≤ net.edgeCount := List.sum_le_sum fun st _ => Nat.le_add_right _ _

theorem ncard_nested_lt (net : Network) :
    {p | net.Nested p}.Finite ∧ {p | net.Nested p}.ncard < net.lookBound := by
  let code (p : Spot) : Nat × (Fin net.edgeCount → Nat) := (p.1, fun i => place p.2[i.val]?)
  let codes := Finset.range (net.states.size + 1) ×ˢ
    Fintype.piFinset fun _ : Fin net.edgeCount => Finset.range (net.states.size + 1)
  have hmaps (p : Spot) (hp : net.Nested p) : code p ∈ codes := by
    simp only [code, codes, Finset.mem_product, Finset.mem_range, Fintype.mem_piFinset]
    exact ⟨Nat.lt_succ_of_lt hp.state, fun i => Nat.lt_succ_of_le (place_le hp.stack i)⟩
  have hinj (p p' : Spot) (hp : net.Nested p) (hp' : net.Nested p') (heq : code p = code p') :
      p = p' := by
    obtain ⟨hstate, hstack⟩ := Prod.mk.inj heq
    exact Prod.ext hstate (eq_of_places hp.length_le hp'.length_le hstack)
  have hcard : codes.card = (net.states.size + 1) ^ (net.edgeCount + 1) := by
    simp only [codes, Finset.card_product, Finset.card_range, Fintype.card_piFinset,
      Finset.prod_const, Finset.card_univ, Fintype.card_fin]
    ring
  obtain ⟨hfin, hle⟩ := ncard_le_of_code code hmaps hinj
  exact ⟨hfin, Nat.lt_succ_of_le (hle.trans_eq hcard)⟩

end bound

/-- What can come next is what the spots yield that are reached without entering a rule twice. -/
theorem returns_nextSymbols (h : net.Orderly) (hs : s < net.states.size) :
    Returns (net.nextSymbols s) fun found => ∀ v, v ∈ found ↔
      ∃ p, net.Slips State.edges net.Fresh (s, []) p ∧ net.Yields p v := by
  obtain ⟨hfin, hlt⟩ := net.ncard_nested_lt
  have hp : net.Nested (s, []) := ⟨hs, nofun, List.nodup_nil, nofun⟩
  have hrem : ({} : LookAhead).Remembers net (s, []) := fun r => by simp [inside]
  obtain ⟨look, hlook, ⟨l, hl, hfound⟩, -⟩ := returns_lookFrom_of_unvisited h hfin hp hrem
    ((Set.ncard_le_ncard (fun x hx => hx.1) hfin).trans_lt hlt)
  have hnew : (· ∈ ({} : LookAhead).busy) = fun _ : Spot => False := funext fun p => by simp
  rw [hnew] at hl
  refine ⟨look.found, by rw [nextSymbols, hlook]; rfl, fun v => ?_⟩
  rw [hfound]
  simp [hl.mem_listed, Slips]

section sound

theorem Orderly.keepsTo (h : net.Orderly) (o : Option Nat) : net.KeepsTo State.edges o := by
  rintro s t ⟨st, hs, hns, e, he, rfl⟩ ho
  exact (h.inside hs hns he).trans ((ownerOf_eq hs).symm.trans ho)

theorem Orderly.not_accepts (h : net.Orderly) (hs : net.states[s]? = some st) (he : e ∈ st.edges) :
    ¬ e.accepts Symbol.ruleEnd Symbol.minToken net.maxToken = true := by
  intro haccepts
  obtain ⟨symbols, hsymbols, hmem⟩ := Edge.accepts_iff.1 haccepts
  have hlow : ¬ Symbol.minToken ≤ Symbol.ruleEnd := by decide
  cases e with
  | notSet => exact hlow ((SymbolSet.mem_complement.1 (Option.some.inj hsymbols ▸ hmem)).1)
  | wildcard => exact hlow ((SymbolSet.mem_ofSpan.1 (Option.some.inj hsymbols ▸ hmem)).1)
  | _ => exact h.unmarked hs _ he symbols hsymbols hmem

theorem Orderly.not_offers (h : net.Orderly) : ¬ net.Offers p Symbol.ruleEnd := by
  rintro ⟨s, stack, st, e, -, hs, -, he, haccepts⟩
  exact h.not_accepts hs he haccepts

theorem exists_yields_iff (h : net.Orderly) : (∃ p, net.Reaches (s, []) p ∧ net.Yields p v) ↔
    net.Offers (s, []) v ∨ (v = Symbol.ruleEnd ∧ net.Finishes (s, []) (net.ownerOf s)) := by
  constructor
  · rintro ⟨⟨t, stack⟩, hpath, st, hs, ⟨hstop, hstack, rfl⟩ | ⟨hns, e, he, haccepts⟩⟩
    · obtain rfl : stack = [] := hstack
      have howner : net.ownerOf t = net.ownerOf s := hpath.ownerOf_bottom (h.keepsTo _) rfl
      exact .inr ⟨rfl, t, st, hpath, hs, hstop, (ownerOf_eq hs).symm.trans howner⟩
    · exact .inl ⟨t, stack, st, e, hpath, hs, hns, he, haccepts⟩
  · rintro (⟨t, stack, st, e, hpath, hs, hns, he, haccepts⟩ | ⟨rfl, t, st, hpath, hs, hstop, -⟩)
    · exact ⟨_, hpath, st, hs, .inr ⟨hns, e, he, haccepts⟩⟩
    · exact ⟨_, hpath, st, hs, .inl ⟨hstop, rfl, rfl⟩⟩

end sound

section complete

/-- A rule that a path is inside of is the rule of the state below which a call is open. -/
theorem exists_of_mem_inside {o : Option Nat} (ho : o ∈ net.inside s stack) :
    ∃ upper q lower, stack = upper ++ q :: lower ∧ net.ownerOf (upper.getLastD s) = o := by
  induction stack generalizing s with
  | nil => cases ho
  | cons q stack ih =>
    rcases List.mem_cons.1 ho with rfl | ho
    · exact ⟨[], q, stack, rfl, rfl⟩
    · obtain ⟨upper, q', lower, rfl, howner⟩ := ih ho
      exact ⟨q :: upper, q', lower, rfl, by rw [List.getLastD_cons, howner]⟩

theorem fresh_of_reaches (h : net.Orderly) (hrec : net.NoLeftRecursion)
    (hpath : net.Reaches (s, []) (t, stack)) (hs : net.states[t]? = some st)
    (hns : st.isRuleStop = false) (hc : .call c ∈ st.edges) : net.Fresh (t, stack) c := by
  intro hin
  obtain ⟨upper, q, lower, rfl, howner⟩ := exists_of_mem_inside hin
  obtain ⟨u, ut, c', hu, hns', hc', -, hcalled⟩ := hpath.exists_call rfl
  have hrule : net.ownerOf (upper.getLastD t) = some c'.rule :=
    hcalled.ownerOf_bottom (h.keepsTo _) (h.call hu hc')
  exact hrec hu hns' hc' hcalled hs hns hc (Option.some.inj (howner.symm.trans hrule))

theorem slips_fresh_iff (h : net.Orderly) (hrec : net.NoLeftRecursion) :
    net.Slips State.edges net.Fresh (s, []) p ↔ net.Reaches (s, []) p := by
  refine ⟨fun hpath => hpath.imp fun _ _ _ => trivial, fun hpath => ?_⟩
  induction hpath with
  | refl => exact .refl
  | tail hpath hslip ih =>
    refine ih.tail ?_
    cases hslip with
    | back hs ht => exact .back hs ht
    | enter hs hns hc => exact .enter hs hns hc (fresh_of_reaches h hrec hpath hs hns hc)
    | silent hs hns he hsil hcall => exact .silent hs hns he hsil hcall

theorem returns_nextSymbols_iff (h : net.Orderly) (hrec : net.NoLeftRecursion)
    (hs : s < net.states.size) :
    Returns (net.nextSymbols s) fun found => ∀ v, v ∈ found ↔
      net.Offers (s, []) v ∨ (v = Symbol.ruleEnd ∧ net.Finishes (s, []) (net.ownerOf s)) :=
  (returns_nextSymbols h hs).imp fun found hfound v => by
    simp only [hfound, slips_fresh_iff h hrec, exists_yields_iff h]

/-- What is acceptable from a spot on: the end of input is if all open calls can come back. -/
def Expects (net : Network) (p : Spot) (v : Int) : Prop :=
  net.Offers p v ∨ (v = Symbol.eof ∧ ∃ o, net.Finishes p o)

/-- What is acceptable when the calls come back one after the other. -/
def ExpectsAfter (net : Network) : List Nat → Int → Prop
  | [], v => v = Symbol.eof
  | q :: stack, v => net.Expects (q, stack) v

theorem finishes_owner (h : net.Orderly) {o : Option Nat} (hf : net.Finishes (s, []) o) :
    o = net.ownerOf s := by
  obtain ⟨t, st, hpath, hs, -, rfl⟩ := hf
  have howner : net.ownerOf t = net.ownerOf s := hpath.ownerOf_bottom (h.keepsTo _) rfl
  exact (ownerOf_eq hs).symm.trans howner

theorem expects_iff (h : net.Orderly) : net.Expects (s, stack) v ↔
    net.Offers (s, []) v ∨ (net.Finishes (s, []) (net.ownerOf s) ∧ net.ExpectsAfter stack v) := by
  cases stack with
  | nil =>
    refine or_congr_right ?_
    constructor
    · rintro ⟨rfl, o, hf⟩
      exact ⟨finishes_owner h hf ▸ hf, rfl⟩
    · exact fun ⟨hf, hv⟩ => ⟨hv, _, hf⟩
  | cons q stack =>
    constructor
    · rintro (⟨t, l, st, e, hpath, hs, hns, he, haccepts⟩ | ⟨rfl, o, t, st, hpath, hs,
        hstop, hrule⟩)
      · rcases slips_cons_iff.1 hpath with ⟨t', upper, hupper, heq⟩ | ⟨z, zt, hz, hzs,
          hzstop, hrest⟩
        · obtain ⟨rfl, rfl⟩ := Prod.mk.inj heq
          exact .inl ⟨t, upper, st, e, hupper, hs, hns, he, haccepts⟩
        · have hf : net.Finishes (s, []) zt.rule := ⟨z, zt, hz, hzs, hzstop, rfl⟩
          exact .inr ⟨finishes_owner h hf ▸ hf, .inl ⟨t, l, st, e, hrest, hs, hns, he, haccepts⟩⟩
      · rcases slips_cons_iff.1 hpath with ⟨t', upper, hupper, heq⟩ | ⟨z, zt, hz, hzs,
          hzstop, hrest⟩
        · simp at heq
        · have hf : net.Finishes (s, []) zt.rule := ⟨z, zt, hz, hzs, hzstop, rfl⟩
          exact .inr ⟨finishes_owner h hf ▸ hf, .inr ⟨rfl, o, t, st, hrest, hs, hstop, hrule⟩⟩
    · rintro (⟨t, upper, st, e, hpath, hs, hns, he, haccepts⟩ | ⟨⟨z, zt, hz, hzs, hzstop, -⟩,
        hrest⟩)
      · exact .inl ⟨t, _, st, e, slips_cons_iff.2 (.inl ⟨t, upper, hpath, rfl⟩), hs,
          hns, he, haccepts⟩
      · have past {p : Spot} (hp : net.Reaches (q, stack) p) : net.Reaches (s, q :: stack) p :=
          slips_cons_iff.2 (.inr ⟨z, zt, hz, hzs, hzstop, hp⟩)
        rcases hrest with ⟨t, l, st, e, hpath, hs, hns, he, haccepts⟩ | ⟨rfl, o, t, st, hpath,
          hs, hstop, hrule⟩
        · exact .inl ⟨t, l, st, e, past hpath, hs, hns, he, haccepts⟩
        · exact .inr ⟨rfl, o, t, st, past hpath, hs, hstop, hrule⟩

/-- The loop over the calling rules adds what is acceptable after the rule looked at before. -/
theorem returns_expectedIn (h : net.Orderly) (hrec : net.NoLeftRecursion)
    {following expected : SymbolSet} (hstack : ∀ q ∈ stack, q < net.states.size)
    (hfollowing : Symbol.ruleEnd ∈ following ↔ net.Finishes (s, []) (net.ownerOf s)) :
    Symbol.ruleEnd ∉ expected → Returns (net.expectedIn stack following expected) fun result =>
      ∀ v, v ∈ result ↔
      v ∈ expected ∨ (net.Finishes (s, []) (net.ownerOf s) ∧ net.ExpectsAfter stack v) := by
  induction stack generalizing s following expected with
  | nil =>
    intro hend
    refine returns_pure fun v => ?_
    split
    · rename_i hf
      simp [ExpectsAfter, hfollowing.1 hf, or_comm]
    · rename_i hf
      have hf : ¬ net.Finishes (s, []) (net.ownerOf s) := fun h => hf (hfollowing.2 h)
      simp [hf]
  | cons q stack ih =>
    intro hend
    obtain ⟨hq, hstack⟩ := List.forall_mem_cons.1 hstack
    unfold expectedIn
    split
    · rename_i hf
      have hf : net.Finishes (s, []) (net.ownerOf s) := hfollowing.1 hf
      refine (returns_nextSymbols_iff h hrec hq).bind fun following' hfollowing' => ?_
      have hend' : Symbol.ruleEnd ∈ following' ↔ net.Finishes (q, []) (net.ownerOf q) := by
        simp [hfollowing', h.not_offers]
      refine (ih hstack hend' (by simp)).imp fun result hresult v => ?_
      have hoffer : net.Offers (q, []) v → v ≠ Symbol.ruleEnd := fun hv hr => h.not_offers (hr ▸ hv)
      have hkeep : v ∈ expected → v ≠ Symbol.ruleEnd := fun hv hr => hend (hr ▸ hv)
      have hafter : net.ExpectsAfter (q :: stack) v ↔ _ := expects_iff h
      rw [hresult, hafter, SymbolSet.mem_erase, SymbolSet.mem_union, hfollowing']
      tauto
    · rename_i hf
      have hf : ¬ net.Finishes (s, []) (net.ownerOf s) := fun h => hf (hfollowing.2 h)
      exact returns_pure fun v => by simp [hf]

end complete

/--
Look-ahead is exact. In an orderly network it comes to an end from every state, and finds only what
paths justify: a token that is matched at their end, the mark of the rule's end if they end the
state's own rule. It finds all that if no rule comes back to itself without input. The symbols
expected where calls are open, the innermost one last, are then those found on paths that go on
behind the calls, and the end of input if all calls can come back; the mark is none of them.
-/
theorem lookAhead_exact (h : net.Orderly) :
    (∀ s < net.states.size, ∃ found, net.nextSymbols s = .ok found ∧
      (∀ v ∈ found, v ≠ Symbol.ruleEnd → net.Offers (s, []) v) ∧
      (Symbol.ruleEnd ∈ found → net.Finishes (s, []) (net.ownerOf s)) ∧
      (net.NoLeftRecursion → (∀ v, net.Offers (s, []) v → v ∈ found) ∧
        (net.Finishes (s, []) (net.ownerOf s) → Symbol.ruleEnd ∈ found))) ∧
    (net.NoLeftRecursion → ∀ s < net.states.size,
    ∀ follow : List Nat, (∀ q ∈ follow, q < net.states.size) →
      ∃ expected, net.expectedSymbols s follow = .ok expected ∧ Symbol.ruleEnd ∉ expected ∧
        ∀ v, v ∈ expected ↔ net.Offers (s, follow.reverse) v ∨
          (v = Symbol.eof ∧ ∃ o, net.Finishes (s, follow.reverse) o)) := by
  refine ⟨fun s hs => ?_, fun hrec s hs follow hfollow => ?_⟩
  · obtain ⟨found, hfound, hiff⟩ := returns_nextSymbols h hs
    have hjust {v : Int} (hv : v ∈ found) :
        net.Offers (s, []) v ∨ (v = Symbol.ruleEnd ∧ net.Finishes (s, []) (net.ownerOf s)) := by
      obtain ⟨p, hpath, hyields⟩ := (hiff v).1 hv
      exact (exists_yields_iff h).1 ⟨p, hpath.imp fun _ _ _ => trivial, hyields⟩
    refine ⟨found, hfound, fun v hv hne => ?_, fun hend => ?_, fun hrec => ?_⟩
    · exact (hjust hv).resolve_right fun hend => hne hend.1
    · exact ((hjust hend).resolve_left h.not_offers).2
    · have hiff' := (returns_nextSymbols_iff h hrec hs).of_eq_ok hfound
      exact ⟨fun v hv => (hiff' v).2 (.inl hv), fun hf => (hiff' _).2 (.inr ⟨rfl, hf⟩)⟩
  · have hexact : Returns (net.expectedSymbols s follow) fun expected => ∀ v, v ∈ expected ↔
        net.Expects (s, follow.reverse) v := by
      refine (returns_nextSymbols_iff h hrec hs).bind fun following hfollowing => ?_
      have hend : Symbol.ruleEnd ∈ following ↔ net.Finishes (s, []) (net.ownerOf s) := by
        simp [hfollowing, h.not_offers]
      have hoffer {v : Int} : net.Offers (s, []) v → v ≠ Symbol.ruleEnd :=
        fun hv hr => h.not_offers (hr ▸ hv)
      split
      · refine (returns_expectedIn h hrec (by simpa using hfollow) hend (by simp)).imp
          fun result hresult v => ?_
        simp only [hresult, SymbolSet.mem_erase, hfollowing, expects_iff h]
        have := @hoffer v
        tauto
      · rename_i hnot
        have hf : ¬ net.Finishes (s, []) (net.ownerOf s) := fun hf => hnot (hend.2 hf)
        exact returns_pure fun v => by simp [hfollowing, expects_iff h, hf]
    obtain ⟨expected, hexpected, hiff⟩ := hexact
    refine ⟨expected, hexpected, fun hend => ?_, hiff⟩
    rcases (hiff _).1 hend with hoffers | ⟨heq, -⟩
    · exact h.not_offers hoffers
    · cases heq

section later

instance (net : Network) : Decidable net.Orderly :=
  decidable_of_iff ((∀ st ∈ net.states.toList, ∀ e ∈ st.edges, e.Within net.states.size) ∧
      (∀ st ∈ net.states.toList, ∀ e ∈ st.edges,
      ∀ symbols ∈ e.label?, symbols.contains Symbol.ruleEnd = false) ∧ (∀ st ∈ net.states.toList,
      ∀ e ∈ st.edges, ∀ c ∈ e.call?, net.ownerOf c.start = some c.rule) ∧ ∀ st ∈ net.states.toList,
      st.isRuleStop = false → ∀ e ∈ st.edges, net.ownerOf e.onward = st.rule) <| by
  constructor
  · rintro ⟨hwithin, hunmarked, hcall, hinside⟩
    exact ⟨forall_getElem?_iff.2 hwithin, fun hs e he symbols hlabel =>
      Bool.eq_false_iff.1 (forall_getElem?_iff.2 hunmarked hs e he _ hlabel), fun hs hc =>
      forall_getElem?_iff.2 hcall hs _ hc _ rfl, fun hs hns he =>
      forall_getElem?_iff.2 hinside hs hns _ he⟩
  · intro h
    refine ⟨forall_getElem?_iff.1 h.within, forall_getElem?_iff.1 fun hs e he symbols hlabel => ?_,
      forall_getElem?_iff.1 fun hs e he c hc => ?_, forall_getElem?_iff.1 fun hs hns e he =>
      h.inside hs hns he⟩
    · exact Bool.eq_false_iff.2 (h.unmarked hs e he symbols hlabel)
    · obtain rfl := Edge.call?_eq_some.1 hc
      exact h.call hs he

theorem noLeftRecursion_of_later (h : net.Orderly)
    (hlater : ∀ st ∈ net.states.toList, ∀ e ∈ st.edges, ∀ c ∈ e.call?, ∃ r ∈ st.rule, r < c.rule) :
    net.NoLeftRecursion := by
  have later {s : Nat} {st : State} {c : Call} (hs : net.states[s]? = some st)
    (hc : .call c ∈ st.edges) :
      ∃ r, net.ownerOf s = some r ∧ r < c.rule := by
    obtain ⟨r, hr, hlt⟩ := forall_getElem?_iff.2 hlater hs _ hc _ rfl
    exact ⟨r, (ownerOf_eq hs).trans hr, hlt⟩
  intro s st c hs hns hc t stack st' c' hpath hs' hns' hc'
  have hpast {p : Spot} (hp : net.Reaches (c.start, []) p) :
      ∀ q ∈ p.1 :: p.2, ∃ r, net.ownerOf q = some r ∧ c.rule ≤ r := by
    induction hp with
    | refl => simp [h.call hs hc]
    | tail _ hslip ih =>
      cases hslip with
      | back => exact (List.forall_mem_cons.1 ih).2
      | @enter u rest ut d hu hns hd =>
        obtain ⟨⟨r, hr, hle⟩, hrest⟩ := List.forall_mem_cons.1 ih
        obtain ⟨r', hr', hlt⟩ := later hu hd
        obtain rfl := Option.some.inj (hr.symm.trans hr')
        have hfollow : net.ownerOf d.follow = some r :=
          (h.inside hu hns hd).trans ((ownerOf_eq hu).symm.trans hr)
        exact List.forall_mem_cons.2 ⟨⟨d.rule, h.call hu hd, by omega⟩,
          List.forall_mem_cons.2 ⟨⟨r, hfollow, hle⟩, hrest⟩⟩
      | @silent u rest ut e hu hns he _ hcall =>
        obtain ⟨⟨r, hr, hle⟩, hrest⟩ := List.forall_mem_cons.1 ih
        have htarget : net.ownerOf e.target = some r := by
          rw [← Edge.onward_of_call?_eq_none hcall, h.inside hu hns he, ← ownerOf_eq hu, hr]
        exact List.forall_mem_cons.2 ⟨⟨r, htarget, hle⟩, hrest⟩
  obtain ⟨r, hr, hle⟩ := hpast hpath t (by simp)
  obtain ⟨r', hr', hlt⟩ := later hs' hc'
  obtain rfl := Option.some.inj (hr.symm.trans hr')
  omega

/-- The rule `a : B b` calls the rule `b : C?`. The call is made in state 5. -/
def optionalCallee : Network where
  kind := .parser
  maxToken := 3
  states := #[
    { number := 0, rule := some 0, kind := .ruleStart (some 1) false false, edges := [.plain 4] },
    { number := 1, rule := some 0, kind := .ruleStop },
    { number := 2, rule := some 1, kind := .ruleStart (some 3) false false, edges := [.plain 7] },
    { number := 3, rule := some 1, kind := .ruleStop, edges := [.plain 6] },
    { number := 4, rule := some 0, kind := .basic, edges := [.atom 5 1] },
    { number := 5, rule := some 0, kind := .basic,
      edges := [.call { start := 2, rule := 1, precedence := 0, follow := 6 }] },
    { number := 6, rule := some 0, kind := .basic, edges := [.plain 1] },
    { number := 7, rule := some 1, kind := .basic, edges := [.atom 8 2, .plain 8] },
    { number := 8, rule := some 1, kind := .basic, edges := [.plain 3] }]
  ruleStarts := #[0, 2]
  ruleStops := #[1, 3]

/-- In front of the call, all that can come before the end of the calling rule is the optional
token. -/
theorem lookAhead_optionalCallee :
    optionalCallee.Orderly ∧ optionalCallee.NoLeftRecursion ∧
    (∃ found, optionalCallee.nextSymbols 5 = .ok found ∧
    (∀ v, optionalCallee.Offers (5, []) v → v ∈ found) ∧
      (optionalCallee.Finishes (5, []) (some 0) → Symbol.ruleEnd ∈ found)) ∧
    ∃ expected, optionalCallee.expectedSymbols 5 [] = .ok expected ∧ Symbol.ruleEnd ∉ expected ∧
      ∀ v, v ∈ expected ↔ optionalCallee.Offers (5, []) v ∨
        (v = Symbol.eof ∧ ∃ o, optionalCallee.Finishes (5, []) o) := by
  have h : optionalCallee.Orderly := by decide +kernel
  have hrec : optionalCallee.NoLeftRecursion := noLeftRecursion_of_later h (by decide +kernel)
  obtain ⟨hnext, hexpected⟩ := lookAhead_exact h
  obtain ⟨found, hfound, -, -, hall⟩ := hnext 5 (by decide)
  exact ⟨h, hrec, ⟨found, hfound, hall hrec⟩, hexpected hrec 5 (by decide) [] nofun⟩

example : optionalCallee.expectedSymbols 5 [] = .ok (.ofList [Symbol.eof, 2]) := by decide +kernel

end later

end Network

end GrammarWalk
