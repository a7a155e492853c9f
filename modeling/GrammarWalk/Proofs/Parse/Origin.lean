import GrammarWalk.Proofs.Parse.Choice

/-! Which paths from a decision a choice follows, in terms of the calls made on them. A trail knows
less than its path: a tail call leaves nothing on its stack, and the mark it leaves stays when the
call has been returned from. So precedence edges of the decision's own invocation are held to its
level on the paths without a tail call so far, and on no others. -/

namespace GrammarWalk.Choice

open Relation

/-- The last call that is no tail call, with the calls made before it: where a rule stop goes back
to. -/
def lastPushed : List Call → Option (Call × List Call)
  | [] => none
  | c :: cs => if c.optimizedTail then lastPushed cs else some (c, cs)

/-- Where the calls that are no tail calls go on. -/
def goesOn (calls : List Call) : List Nat :=
  (calls.filter fun c : Call => !c.optimizedTail).map Call.follow

/-- A path from a decision, with the calls made on it. -/
structure Route where
  state : Nat
  /-- The alternative it began with, and the one edge it can take if it is still at the decision. -/
  alternative : Nat
  only : Option Nat := none
  /-- The calls that it has not returned from, last call first. -/
  opened : List Call := []
  /-- The number of rules being parsed that have not ended since. -/
  outer : Nat
  /-- It has made a tail call. -/
  tailed : Bool := false
  tails : ∀ c ∈ opened, c.optimizedTail = true → tailed = true := by simp

variable {s : Setting} {r r' : Route} {t t' x : Trail} {st : State} {calls rest : List Call}
  {c : Call} {q : Nat}
  {stack : List Nat} {free : Route → Int → Prop} {decision : Nat} {symbol : Int} {word : List Int}
    {trails next : List Trail}

theorem suffix_of_lastPushed (h : lastPushed calls = some (c, rest)) : rest <:+ calls := by
  induction calls with
  | nil => cases h
  | cons d ds ih =>
    rw [lastPushed] at h
    split at h
    · exact (ih h).trans (List.suffix_cons d ds)
    · obtain ⟨rfl, rfl⟩ := Prod.mk.inj (Option.some.inj h)
      exact List.suffix_cons d ds

theorem goesOn_eq_nil : goesOn calls = [] ↔ lastPushed calls = none := by
  induction calls with
  | nil => exact ⟨fun _ => rfl, fun _ => rfl⟩
  | cons d ds ih =>
    rw [lastPushed]
    cases hd : d.optimizedTail with
    | true => simpa [goesOn, hd] using ih
    | false => simp [goesOn, hd]

theorem goesOn_eq_cons : goesOn calls = q :: stack ↔
    ∃ c rest, lastPushed calls = some (c, rest) ∧ c.follow = q ∧ goesOn rest = stack := by
  induction calls with
  | nil => simp [goesOn, lastPushed]
  | cons d ds ih =>
    rw [lastPushed]
    cases hd : d.optimizedTail with
    | true => simpa [goesOn, hd] using ih
    | false => simp [goesOn, hd]

namespace Route

def moveTo (r : Route) (q : Nat) : Route := { r with state := q, only := none }

def enter (r : Route) (c : Call) : Route :=
  { r with
    state := c.start, only := none, opened := c :: r.opened, tailed := r.tailed || c.optimizedTail
    tails := fun d hd htail => by
      rcases List.mem_cons.1 hd with rfl | hd
      · simp [htail]
      · simp [r.tails d hd htail] }

def back (r : Route) (c : Call) (rest : List Call) (h : lastPushed r.opened = some (c, rest)) :
    Route :=
  { r with
    state := c.follow, opened := rest
    tails := fun d hd => r.tails d ((suffix_of_lastPushed h).subset hd) }

/-- The path leaves the decision's rule for the live invocation `outer`, which goes on in
`caller`. -/
def out (r : Route) (outer caller : Nat) : Route :=
  { r with state := caller, opened := [], outer, tails := by simp }

def trail (s : Setting) (r : Route) : Trail where
  state := r.state
  alternative := r.alternative
  only := r.only
  stack := goesOn r.opened
  outer := r.outer
  leftOrigin := r.tailed || decide (r.outer < s.follow.size)

/-- The path is in the decision's own invocation: it has returned from every call, and entered no
live invocation. -/
def AtHome (s : Setting) (r : Route) : Prop := r.opened = [] ∧ s.follow.size ≤ r.outer

def origin (s : Setting) (decision i : Nat) : Route :=
  { state := decision, alternative := i + 1, only := some i, outer := s.follow.size }

theorem trail_origin {i : Nat} :
    (Route.origin s decision i).trail s = Choice.origin s decision i := by
  simp [trail, Route.origin, Choice.origin, goesOn]

theorem trail_out {outer caller : Nat} (hlt : outer < s.follow.size) :
    (r.out outer caller).trail s =
    { r.trail s with state := caller, stack := [], outer, leftOrigin := true } := by
  simp [trail, out, hlt, goesOn]

theorem trail_enter_tail (htail : c.optimizedTail = true) : (r.enter c).trail s =
    { r.trail s with state := c.start, only := none, leftOrigin := true } := by
  simp [trail, enter, htail, goesOn]

theorem trail_enter_push (htail : c.optimizedTail = false) : (r.enter c).trail s =
    { r.trail s with state := c.start, only := none, stack := c.follow :: (r.trail s).stack } := by
  simp [trail, enter, htail, goesOn]

end Route

/-- What the search asks of a precedence edge: its level, at home and as long as no tail call has
been made. -/
def Guarded (s : Setting) (r : Route) (level : Int) : Prop :=
  r.AtHome s → r.tailed = false → s.precedence ≤ level

/-- One move of a path without input. It is for `free` to say which precedence edges can be
taken. -/
inductive Roams (s : Setting) (free : Route → Int → Prop) : Route → Route → Prop
  | back {r : Route} {st : State} {c : Call} {rest : List Call} : s.net.states[r.state]? = some st →
      st.isRuleStop = true → (h : lastPushed r.opened = some (c, rest)) →
      Roams s free r (r.back c rest h)
  | out {r : Route} {st : State} {outer caller : Nat} : s.net.states[r.state]? = some st →
      st.isRuleStop = true →
      lastPushed r.opened = none → r.outer = outer + 1 → s.follow[outer]? = some caller →
      Roams s free r (r.out outer caller)
  | enter {r : Route} {st : State} {c : Call} : s.net.states[r.state]? = some st →
      st.isRuleStop = false →
      (r.trail s).Takes st (.call c) →
      (c.optimizedTail = false → (goesOn r.opened).length < maxCalls) →
      Roams s free r (r.enter c)
  | precedence {r : Route} {st : State} {target : Nat} {level : Int} :
      s.net.states[r.state]? = some st →
      st.isRuleStop = false → (r.trail s).Takes st (.precedence target level) → free r level →
      Roams s free r (r.moveTo target)
  | silent {r : Route} {st : State} {e : Edge} : s.net.states[r.state]? = some st →
      st.isRuleStop = false →
      (r.trail s).Takes st e → e.isSilent = true → e.call? = none →
      (∀ target level, e ≠ .precedence target level) →
      Roams s free r (r.moveTo e.target)

/-- A path over a symbol. Past the outermost rule it stays where it is, at the end of input. -/
def Sends (s : Setting) (symbol : Int) (r r' : Route) : Prop :=
  (Completes s (r.trail s) ∧ symbol = Symbol.eof ∧ r' = r) ∨
    ∃ st e, s.net.states[r.state]? = some st ∧ st.isRuleStop = false ∧ (r.trail s).Takes st e ∧
      e.accepts symbol Symbol.minToken s.net.maxToken = true ∧ r' = r.moveTo e.target

/-- A path from the decision, with the symbols it has read, last symbol first. -/
inductive Journey (s : Setting) (free : Route → Int → Prop) (decision : Nat) :
    List Int → Route → Prop
  | start {i : Nat} {st : State} {r : Route} : s.net.states[decision]? = some st →
      i < st.edges.length →
      ReflTransGen (Roams s free) (.origin s decision i) r → Journey s free decision [] r
  | read {word : List Int} {symbol : Int} {r r₁ r' : Route} : Journey s free decision word r →
      Sends s symbol r r₁ →
      ReflTransGen (Roams s free) r₁ r' → Journey s free decision (symbol :: word) r'

/-- The trails that the search keeps after the symbols, last symbol first. -/
inductive Kept (s : Setting) (decision : Nat) : List Int → List Trail → Prop
  | start {trails : List Trail} : start s decision = .ok trails → Kept s decision [] trails
  | step {word : List Int} {symbol : Int} {trails next : List Trail} : Kept s decision word trails →
      step s trails symbol = .ok next → Kept s decision (symbol :: word) next

/-- At home, before any tail call, a trail has nothing on its stack and no mark; and nowhere
else. -/
theorem home_iff :
    (r.AtHome s ∧ r.tailed = false) ↔ (r.trail s).stack = [] ∧ (r.trail s).leftOrigin = false := by
  simp only [Route.AtHome, Route.trail, Bool.or_eq_false_iff, decide_eq_false_iff_not, Nat.not_lt]
  constructor
  · rintro ⟨⟨hopened, houter⟩, htailed⟩
    exact ⟨by rw [hopened]; rfl, htailed, houter⟩
  · rintro ⟨hstack, htailed, houter⟩
    refine ⟨⟨?_, houter⟩, htailed⟩
    cases hopened : r.opened with
    | nil => rfl
    | cons c cs =>
      -- the last call would be on the stack, for it is no tail call
      have htail : c.optimizedTail = false := Bool.eq_false_iff.2 fun htail => by
        have := r.tails c (by simp [hopened]) htail
        rw [htailed] at this
        cases this
      rw [hopened] at hstack
      simp [goesOn, htail] at hstack

theorem guarded_iff {level : Int} : Guarded s r level ↔
    ((r.trail s).stack = [] → (r.trail s).leftOrigin = false → s.precedence ≤ level) := by
  rw [Guarded, ← and_imp, home_iff, and_imp]

theorem moves_of_roams (h : Roams s (Guarded s) r r') : Moves s (r.trail s) (r'.trail s) := by
  cases h with
  | back hst hstop h => exact .back hst hstop (goesOn_eq_cons.2 ⟨_, _, h, rfl, rfl⟩)
  | out hst hstop h houter hcaller =>
    have hstack : (r.trail s).stack = [] := goesOn_eq_nil.2 h
    rw [Route.trail_out (Array.getElem?_eq_some_iff.1 hcaller).1, ← hstack]
    exact .out hst hstop hstack houter hcaller
  | @enter _ c hst hns he hroom =>
    cases htail : c.optimizedTail with
    | true =>
      rw [Route.trail_enter_tail htail]
      exact .tail hst hns he htail
    | false =>
      rw [Route.trail_enter_push htail]
      exact .push hst hns he htail (hroom htail)
  | precedence hst hns he hfree => exact .precedence hst hns he (guarded_iff.1 hfree)
  | silent hst hns he hsilent hcall hlevel => exact .silent hst hns he hsilent hcall hlevel

theorem roams_of_moves (h : Moves s (r.trail s) t') :
    ∃ r', Roams s (Guarded s) r r' ∧ r'.trail s = t' := by
  cases h with
  | back hst hstop hstack =>
    obtain ⟨c, rest, hlast, rfl, rfl⟩ := goesOn_eq_cons.1 hstack
    exact ⟨_, .back hst hstop hlast, rfl⟩
  | out hst hstop hstack houter hcaller =>
    refine ⟨_, .out hst hstop (goesOn_eq_nil.1 hstack) houter hcaller, ?_⟩
    rw [Route.trail_out (Array.getElem?_eq_some_iff.1 hcaller).1, ← hstack]
  | push hst hns he htail hroom =>
    exact ⟨_, .enter hst hns he fun _ => hroom, Route.trail_enter_push htail⟩
  | tail hst hns he htail =>
    exact ⟨_, .enter hst hns he fun hpushed => absurd (htail.symm.trans hpushed) (by simp),
      Route.trail_enter_tail htail⟩
  | precedence hst hns he hlevel => exact ⟨_, .precedence hst hns he (guarded_iff.2 hlevel), rfl⟩
  | silent hst hns he hsilent hcall hlevel =>
    exact ⟨_, .silent hst hns he hsilent hcall hlevel, rfl⟩

theorem reaches_iff : ReflTransGen (Moves s) (r.trail s) x ↔
    ∃ r', ReflTransGen (Roams s (Guarded s)) r r' ∧ r'.trail s = x := by
  constructor
  · intro h
    induction h with
    | refl => exact ⟨r, .refl, rfl⟩
    | tail _ hm ih =>
      obtain ⟨r', hr, rfl⟩ := ih
      obtain ⟨r'', hstep, rfl⟩ := roams_of_moves hm
      exact ⟨r'', hr.tail hstep, rfl⟩
  · rintro ⟨r', hr, rfl⟩
    induction hr with
    | refl => exact .refl
    | tail _ hstep ih => exact ih.tail (moves_of_roams hstep)

theorem sent_iff : Sent s symbol (r.trail s) x ↔ ∃ r', Sends s symbol r r' ∧ r'.trail s = x := by
  constructor
  · rintro (⟨hc, heof, rfl⟩ | ⟨st, e, hst, hns, he, hacc, rfl⟩)
    · exact ⟨r, .inl ⟨hc, heof, rfl⟩, rfl⟩
    · exact ⟨_, .inr ⟨st, e, hst, hns, he, hacc, rfl⟩, rfl⟩
  · rintro ⟨r', ⟨hc, heof, rfl⟩ | ⟨st, e, hst, hns, he, hacc, rfl⟩, rfl⟩
    · exact .inl ⟨hc, heof, rfl⟩
    · exact .inr ⟨st, e, hst, hns, he, hacc, rfl⟩

theorem Sent.inRange (h : s.InRange) (hs : Sent s symbol t x) (ht : t.InRange s) : x.InRange s := by
  obtain ⟨-, -, rfl⟩ | hr := hs
  · exact ht
  · exact hr.inRange h ht

/-- What a search keeps is what waits at the ends of the paths that take, in the decision's own
invocation and before any tail call, no precedence edge of too low a level. -/
theorem mem_kept_iff (h : s.InRange) (hst : s.net.states[decision]? = some st)
    (hns : st.isRuleStop = false) (hk : Kept s decision word trails) :
    Waiting s trails ∧ ∀ x, x ∈ trails ↔ ∃ r, Journey s (Guarded s) decision word r ∧
      r.trail s = x ∧ Waits s x := by
  induction hk with
  | start hstart =>
    have htrails := (returns_start h hst hns).of_eq_ok hstart
    refine ⟨waiting_start h hst hns htrails, fun x => (htrails x).trans ?_⟩
    constructor
    · rintro ⟨i, hi, hix, hw⟩
      rw [← Route.trail_origin, reaches_iff] at hix
      obtain ⟨r, hr, rfl⟩ := hix
      exact ⟨r, .start hst hi hr, rfl, hw⟩
    · rintro ⟨r, hj, rfl, hw⟩
      cases hj with
      | @start i _ _ hst' hi hr =>
        obtain rfl := Option.some.inj (hst.symm.trans hst')
        refine ⟨i, hi, ?_, hw⟩
        rw [← Route.trail_origin]
        exact reaches_iff.2 ⟨r, hr, rfl⟩
  | step _ hstep ih =>
    obtain ⟨hwaiting, ih⟩ := ih
    have hnext := (returns_step _ h hwaiting).of_eq_ok hstep
    refine ⟨fun x hx => ?_, fun x => (hnext x).trans ?_⟩
    · obtain ⟨t, ht, y, hty, hyx, hw⟩ := (hnext x).1 hx
      exact ⟨reaches_inRange h hyx (hty.inRange h (hwaiting t ht).1), hw⟩
    · constructor
      · rintro ⟨t, ht, y, hty, hyx, hw⟩
        obtain ⟨r, hj, rfl, -⟩ := (ih t).1 ht
        obtain ⟨r₁, hsends, rfl⟩ := sent_iff.1 hty
        obtain ⟨r', hr, rfl⟩ := reaches_iff.1 hyx
        exact ⟨r', .read hj hsends hr, rfl, hw⟩
      · rintro ⟨r', hj, rfl, hw⟩
        cases hj with
        | @read _ _ r r₁ _ hj hsends hr =>
          have hsent := sent_iff.2 ⟨r₁, hsends, rfl⟩
          refine ⟨r.trail s, (ih _).2 ⟨r, hj, rfl, ?_⟩, r₁.trail s, hsent,
            reaches_iff.2 ⟨r', hr, rfl⟩, hw⟩
          obtain ⟨hc, -, -⟩ | hreads := hsent
          · exact .inl hc
          · exact hreads.waits

theorem exists_kept (h : s.InRange) (hst : s.net.states[decision]? = some st)
    (hns : st.isRuleStop = false) : ∀ word, ∃ trails, Kept s decision word trails := by
  intro word
  induction word with
  | nil =>
    obtain ⟨trails, htrails, -⟩ := returns_start h hst hns
    exact ⟨trails, .start htrails⟩
  | cons symbol word ih =>
    obtain ⟨trails, hk⟩ := ih
    obtain ⟨next, hnext, -⟩ := returns_step symbol h (mem_kept_iff h hst hns hk).1
    exact ⟨next, .step hk hnext⟩

section offers

variable {e : Edge}

def Route.offers (s : Setting) (r : Route) (e : Edge) : Bool :=
  s.net.states[r.state]?.any fun st => !st.isRuleStop &&
    (r.only.elim (st.followed.contains e) fun i => st.edges[i]? == some e)

theorem takes_of_offers (h : r.offers s e = true) :
    ∃ st, s.net.states[r.state]? = some st ∧ st.isRuleStop = false ∧ (r.trail s).Takes st e := by
  obtain ⟨st, hst, h⟩ := Option.any_eq_true _ _ |>.1 h
  simp only [Bool.and_eq_true, Bool.not_eq_true'] at h
  refine ⟨st, hst, h.1, ?_⟩
  unfold Trail.Takes
  have hedge := h.2
  cases honly : r.only <;> simp_all [Route.trail]

theorem Roams.plain (h : r.offers s (.plain q) = true) : Roams s free r (r.moveTo q) := by
  obtain ⟨st, hst, hns, he⟩ := takes_of_offers h
  exact .silent hst hns he rfl rfl nofun

theorem Roams.call (h : r.offers s (.call c) = true) (hroom : (goesOn r.opened).length < maxCalls) :
    Roams s free r (r.enter c) := by
  obtain ⟨st, hst, hns, he⟩ := takes_of_offers h
  exact .enter hst hns he fun _ => hroom

theorem Roams.return (h : s.net.states[r.state]?.any State.isRuleStop = true)
    (hlast : lastPushed r.opened = some (c, rest)) : Roams s free r (r.back c rest hlast) := by
  obtain ⟨st, hst, hstop⟩ := Option.any_eq_true _ _ |>.1 h
  exact .back hst hstop hlast

end offers

end GrammarWalk.Choice
