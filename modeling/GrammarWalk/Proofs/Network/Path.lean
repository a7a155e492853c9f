import GrammarWalk.Proofs.Network.Rewrite

/-! Paths that take no input, with the calls still open on them. A rule stop leads back to where the
last open call goes on; a path that has no call open ends there. -/

namespace GrammarWalk.Network

/-- A state, and where the calls that led to it go on, last call first. -/
abbrev Spot := Nat × List Nat

/-- One move without input. It is for `room` to say which calls are made from a spot. -/
inductive Slip (net : Network) (view : State → List Edge) (room : Spot → Call → Prop) :
    Spot → Spot → Prop
  | back {s q : Nat} {stack : List Nat} {st : State} : net.states[s]? = some st →
      st.isRuleStop = true →
      Slip net view room (s, q :: stack) (q, stack)
  | enter {s : Nat} {stack : List Nat} {st : State} {c : Call} : net.states[s]? = some st →
      st.isRuleStop = false → .call c ∈ view st → room (s, stack) c →
      Slip net view room (s, stack) (c.start, c.follow :: stack)
  | silent {s : Nat} {stack : List Nat} {st : State} {e : Edge} : net.states[s]? = some st →
      st.isRuleStop = false → e ∈ view st → e.isSilent = true → e.call? = none →
      Slip net view room (s, stack) (e.target, stack)

/-- Any number of moves without input. -/
def Slips (net : Network) (view : State → List Edge) (room : Spot → Call → Prop) :
    Spot → Spot → Prop :=
  Relation.ReflTransGen (net.Slip view room)

/-- The state that the path began in, or the one where the first open call goes on. -/
def Spot.bottom (p : Spot) : Nat := p.2.getLastD p.1

/-- The rules that the open calls have entered, last call first. -/
def inside (net : Network) : Nat → List Nat → List (Option Nat)
  | _, [] => []
  | s, q :: stack => net.ownerOf s :: net.inside q stack

/-- Paths of the view do not leave a rule once they are in it, but at its stop. -/
def KeepsTo (net : Network) (view : State → List Edge) (o : Option Nat) : Prop :=
  ∀ {s t : Nat}, net.Onward view s t → net.ownerOf s = o → net.ownerOf t = o

variable {net : Network} {view : State → List Edge} {room room' : Spot → Call → Prop} {p p' : Spot}
  {s t q : Nat} {stack rest : List Nat} {o : Option Nat} {st : State}

theorem slip_iff_along (hs : net.states[s]? = some st) (hns : st.isRuleStop = false) :
    net.Slip view room (s, stack) p' ↔
      (∃ c, .call c ∈ view st ∧ room (s, stack) c ∧ p' = (c.start, c.follow :: stack)) ∨
      ∃ e ∈ view st, e.isSilent = true ∧ e.call? = none ∧ p' = (e.target, stack) := by
  constructor
  · intro h
    cases h with
    | back hs' ht => simp_all
    | enter hs' _ hc hroom =>
      obtain rfl := Option.some.inj (hs'.symm.trans hs)
      exact .inl ⟨_, hc, hroom, rfl⟩
    | silent hs' _ he hsil hcall =>
      obtain rfl := Option.some.inj (hs'.symm.trans hs)
      exact .inr ⟨_, he, hsil, hcall, rfl⟩
  · rintro (⟨c, hc, hroom, rfl⟩ | ⟨e, he, hsil, hcall, rfl⟩)
    · exact .enter hs hns hc hroom
    · exact .silent hs hns he hsil hcall

theorem slip_iff_of_stop (hs : net.states[s]? = some st) (ht : st.isRuleStop = true) :
    net.Slip view room (s, stack) p' ↔ ∃ q rest, stack = q :: rest ∧ p' = (q, rest) := by
  constructor
  · intro h
    cases h with
    | back => exact ⟨_, _, rfl, rfl⟩
    | enter hs' hns => simp_all
    | silent hs' hns => simp_all
  · rintro ⟨q, rest, rfl, rfl⟩
    exact .back hs ht

theorem Slip.above (h : net.Slip view room p p')
    (hroom : ∀ c, room p c → room' (p.1, p.2 ++ rest) c) :
    net.Slip view room' (p.1, p.2 ++ rest) (p'.1, p'.2 ++ rest) := by
  cases h with
  | back hs ht => exact .back hs ht
  | enter hs hns hc hr => exact .enter hs hns hc (hroom _ hr)
  | silent hs hns he hsil hcall => exact .silent hs hns he hsil hcall

theorem Slip.imp (h : net.Slip view room p p') (hroom : ∀ c, room p c → room' p c) :
    net.Slip view room' p p' := by
  cases h with
  | back hs ht => exact .back hs ht
  | enter hs hns hc hr => exact .enter hs hns hc (hroom _ hr)
  | silent hs hns he hsil hcall => exact .silent hs hns he hsil hcall

theorem Slips.imp (h : net.Slips view room p p') (hroom : ∀ p c, room p c → room' p c) :
    net.Slips view room' p p' :=
  Relation.ReflTransGen.mono (fun p _ h => h.imp (hroom p)) _ _ h

theorem inside_congr (h : net.ownerOf s = net.ownerOf t) :
    net.inside s stack = net.inside t stack := by
  cases stack <;> simp [inside, h]

theorem Slip.ownerOf_bottom (h : net.Slip view room p p') (hk : net.KeepsTo view o)
    (ho : net.ownerOf p.bottom = o) : net.ownerOf p'.bottom = o := by
  cases h with
  | back =>
    rw [Spot.bottom, List.getLastD_cons] at ho
    exact ho
  | @enter s stack st c hs hns hc =>
    rw [Spot.bottom, List.getLastD_cons]
    cases stack with
    | nil => exact hk ⟨_, hs, hns, _, hc, rfl⟩ ho
    | cons => exact ho
  | @silent s stack st e hs hns he _ hcall =>
    cases stack with
    | nil => exact hk ⟨_, hs, hns, _, he, Edge.onward_of_call?_eq_none hcall⟩ ho
    | cons => exact ho

theorem Slips.ownerOf_bottom (h : net.Slips view room p p') (hk : net.KeepsTo view o)
    (ho : net.ownerOf p.bottom = o) : net.ownerOf p'.bottom = o := by
  induction h with
  | refl => exact ho
  | tail _ hslip ih => exact hslip.ownerOf_bottom hk ih

section free

abbrev Free : Spot → Call → Prop := fun _ _ => True

/--
An open call was made on the path: `c` goes on in the entry `q`, and its rule leads from its start
to the spot above `q`.
-/
theorem Slips.exists_call (h : net.Slips view Free (s, []) p) :
    ∀ {t : Nat} {upper lower : List Nat}, p = (t, upper ++ q :: lower) →
      ∃ (u : Nat) (st : State) (c : Call), net.states[u]? = some st ∧ st.isRuleStop = false ∧
        .call c ∈ view st ∧ c.follow = q ∧ net.Slips view Free (c.start, []) (t, upper) := by
  induction h with
  | refl =>
    intro t upper lower hp
    simp at hp
  | @tail p p' _ hslip ih =>
    intro t upper lower hp
    subst hp
    generalize hp' : (t, upper ++ q :: lower) = p' at hslip
    cases hslip with
    | @back s' q' stack st hs ht =>
      obtain ⟨rfl, rfl⟩ := Prod.mk.inj hp'
      obtain ⟨u, ut, c, hu, hns, hc, hq, hpath⟩ := @ih _ (t :: upper) _ rfl
      exact ⟨u, ut, c, hu, hns, hc, hq, hpath.tail (.back hs ht)⟩
    | @enter s' stack st c hs hns hc =>
      obtain ⟨rfl, hstack⟩ := Prod.mk.inj hp'
      cases upper with
      | nil =>
        obtain ⟨rfl, rfl⟩ := List.cons.inj hstack
        exact ⟨_, _, c, hs, hns, hc, rfl, .refl⟩
      | cons q' upper =>
        obtain ⟨rfl, rfl⟩ := List.cons.inj hstack
        obtain ⟨u, ut, c', hu, hns', hc', hq, hpath⟩ := ih rfl
        exact ⟨u, ut, c', hu, hns', hc', hq, hpath.tail (.enter hs hns hc trivial)⟩
    | @silent s' stack st e hs hns he hsil hcall =>
      obtain ⟨rfl, rfl⟩ := Prod.mk.inj hp'
      obtain ⟨u, ut, c, hu, hns', hc, hq, hpath⟩ := ih rfl
      exact ⟨u, ut, c, hu, hns', hc, hq, hpath.tail (.silent hs hns he hsil hcall)⟩

/--
A path on which a call is open from the beginning either leaves it open, or comes to the end of the
rule it began in and goes on where the call does.
-/
theorem slips_cons_iff : net.Slips view Free (s, q :: stack) p ↔
    (∃ t upper, net.Slips view Free (s, []) (t, upper) ∧ p = (t, upper ++ q :: stack)) ∨
    ∃ (t : Nat) (st : State), net.Slips view Free (s, []) (t, []) ∧ net.states[t]? = some st ∧
      st.isRuleStop = true ∧ net.Slips view Free (q, stack) p := by
  have lift {t : Nat} {upper : List Nat} (h : net.Slips view Free (s, []) (t, upper)) :
      net.Slips view Free (s, q :: stack) (t, upper ++ q :: stack) :=
    Relation.ReflTransGen.lift (fun p : Spot => ((p.1, p.2 ++ q :: stack) : Spot))
      (fun _ _ h => Slip.above h fun _ _ => trivial) _ _ h
  constructor
  · intro h
    induction h with
    | refl => exact .inl ⟨s, [], .refl, rfl⟩
    | tail _ hslip ih =>
      rcases ih with ⟨t, upper, hpath, rfl⟩ | ⟨t, st, hpath, hs, ht, hrest⟩
      · generalize hp : (t, upper ++ q :: stack) = p at hslip
        cases hslip with
        | @back s' q' stack' st hs ht =>
          obtain ⟨rfl, hstack⟩ := Prod.mk.inj hp
          cases upper with
          | nil =>
            obtain ⟨rfl, rfl⟩ := List.cons.inj hstack
            exact .inr ⟨t, st, hpath, hs, ht, .refl⟩
          | cons q' upper =>
            obtain ⟨rfl, rfl⟩ := List.cons.inj hstack
            exact .inl ⟨q', upper, hpath.tail (.back hs ht), rfl⟩
        | enter hs hns hc =>
          obtain ⟨rfl, rfl⟩ := Prod.mk.inj hp
          exact .inl ⟨_, _, hpath.tail (.enter hs hns hc trivial), rfl⟩
        | silent hs hns he hsil hcall =>
          obtain ⟨rfl, rfl⟩ := Prod.mk.inj hp
          exact .inl ⟨_, _, hpath.tail (.silent hs hns he hsil hcall), rfl⟩
      · exact .inr ⟨t, st, hpath, hs, ht, hrest.tail hslip⟩
  · rintro (⟨t, upper, hpath, rfl⟩ | ⟨t, st, hpath, hs, ht, hrest⟩)
    · exact lift hpath
    · exact ((lift hpath).tail (.back hs ht)).trans hrest

end free

end GrammarWalk.Network
