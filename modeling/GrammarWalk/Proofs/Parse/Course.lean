import GrammarWalk.Proofs.Network.TailCalls
import GrammarWalk.Proofs.Parse.Choice

/-! The trails of a choice against the runs of the network. A trail that is to complete the
outermost rule has a run ahead of it in each rule that it is inside of, and such runs, one after the
other, are a way for the trail. -/

namespace GrammarWalk

namespace Network

/-- The symbols lead from the state to the stop of its rule. -/
def Ends (net : Network) (view : State → List Edge) (cost : Call → Nat) (n s : Nat) (w : List Int) :
    Prop :=
  ∃ r z, net.ownerOf s = some r ∧ net.ruleStops[r]? = some z ∧
    net.Run view cost Symbol.minToken net.maxToken n s z w

/-- A rule that is still to be ended: the state to go on in, and the cost that calls may add up to
on the way. -/
structure Leg where
  room : Nat
  state : Nat
deriving DecidableEq, Repr

/-- The symbols lead through rules that are to be ended one after the other. -/
inductive Chained (net : Network) (view : State → List Edge) (cost : Call → Nat) :
    List Leg → List Int → Prop
  | nil : Chained net view cost [] []
  | cons {leg : Leg} {legs : List Leg} {u w : List Int} : net.Ends view cost leg.room leg.state u →
      Chained net view cost legs w → Chained net view cost (leg :: legs) (u ++ w)

/-- Of the rules to be ended only the last may be the rule `root`. -/
def RootLast (net : Network) (root : Nat) : List Leg → Prop
  | [] => True
  | leg :: legs => (net.ownerOf leg.state = some root → legs = []) ∧ RootLast net root legs

/--
What the lists that a search follows are like when rules are entered by calls and left at their one
stop only, and nothing calls `root`. A call costs something unless it is a tail call; behind a tail
call the rest of the rule takes nothing; and the end of input is taken in `root` only, with nothing
to be taken behind it.
-/
structure Regular (net : Network) (root : Nat) (cost : Call → Nat) : Prop where
  stop : ∀ {s : Nat} {st : State}, net.states[s]? = some st → st.isRuleStop = true →
    ∃ r, st.rule = some r ∧ net.ruleStops[r]? = some s
  onward : ∀ {s : Nat} {st : State} {e : Edge}, net.states[s]? = some st → st.isRuleStop = false →
    e ∈ st.followed →
    net.ownerOf e.onward = net.ownerOf s
  call : ∀ {s : Nat} {st : State} {c : Call}, net.states[s]? = some st → .call c ∈ st.followed →
    net.ownerOf c.start = some c.rule ∧ c.rule ≠ root ∧ cost c = if c.optimizedTail then 0 else 1
  tail : ∀ {s : Nat} {st : State} {c : Call}, net.states[s]? = some st → .call c ∈ st.followed →
    c.optimizedTail = true →
    net.QuietAhead State.followed c.follow ∧ ∀ n, net.Ends State.followed cost n c.follow []
  eof : ∀ {s : Nat} {st : State} {e : Edge}, net.states[s]? = some st → e ∈ st.followed →
    e.accepts Symbol.eof Symbol.minToken net.maxToken = true →
    net.ownerOf s = some root ∧ ∀ n, net.Ends State.followed cost n e.target []
  level : ∀ {s : Nat} {st : State} {t : Nat} {level : Int}, net.states[s]? = some st →
    .precedence t level ∈ st.followed →
    0 ≤ level

variable {net : Network} {view : State → List Edge} {root : Nat} {cost : Call → Nat}
  {m n s z : Nat} {lo hi : Int}
  {u w : List Int} {st : State} {e : Edge} {c : Call} {leg leg' : Leg} {legs : List Leg}

theorem Run.ends_at_stop (h : net.Run view cost lo hi n s z w) :
    ∃ st, net.states[z]? = some st ∧ st.isRuleStop = true := by
  induction h with
  | stop hs ht => exact ⟨_, hs, ht⟩
  | silent _ _ _ _ _ _ ih => exact ih
  | read _ _ _ _ _ ih => exact ih
  | call _ _ _ _ _ _ _ _ ih => exact ih

theorem QuietAhead.run_eq_nil (hq : net.QuietAhead view s) (h : net.Run view cost lo hi n s z w) :
    w = [] := by
  have quiet {s : Nat} {st : State} (hq : net.QuietAhead view s) (hs : net.states[s]? = some st)
      (hns : st.isRuleStop = false) {e : Edge} (he : e ∈ view st) : e.isEpsilon = true := by
    obtain ⟨st', hs', hstop | ⟨-, -, hall⟩⟩ := hq s .refl
    · obtain rfl := Option.some.inj (hs.symm.trans hs')
      rw [hns] at hstop
      cases hstop
    · obtain rfl := Option.some.inj (hs.symm.trans hs')
      exact hall e he
  induction h with
  | stop => rfl
  | silent hs hns he _ _ _ ih => exact ih fun t ht => hq t (.head ⟨_, hs, hns, _, he, rfl⟩ ht)
  | @read n s t w st e v hs hns he ha =>
    have hepsilon := quiet hq hs hns he
    have hsilent : e.isSilent = true := by cases e <;> first | rfl | cases hepsilon
    rw [Edge.not_accepts_of_isSilent hsilent] at ha
    cases ha
  | call hs hns he =>
    have hepsilon := quiet hq hs hns he
    cases hepsilon

theorem RootLast.replace (h : net.RootLast root (leg :: legs))
    (ho : net.ownerOf leg'.state = net.ownerOf leg.state) : net.RootLast root (leg' :: legs) :=
  ⟨fun hroot => h.1 (ho ▸ hroot), h.2⟩

namespace Regular

variable (h : net.Regular root cost) (hs : net.states[s]? = some st) (hns : st.isRuleStop = false)
include h hs hns

theorem ends_silent (he : e ∈ st.followed) (hsilent : e.isSilent = true) (hcall : e.call? = none)
    (hends : net.Ends State.followed cost n e.target w) : net.Ends State.followed cost n s w := by
  obtain ⟨r, z, howner, hz, hrun⟩ := hends
  have hsame := h.onward hs hns he
  rw [Edge.onward_of_call?_eq_none hcall, howner] at hsame
  exact ⟨r, z, hsame.symm, hz, .silent hs hns he hsilent hcall hrun⟩

theorem ends_read {v : Int} (he : e ∈ st.followed)
    (ha : e.accepts v Symbol.minToken net.maxToken = true)
    (hends : net.Ends State.followed cost n e.target w) :
    net.Ends State.followed cost n s (v :: w) := by
  obtain ⟨r, z, howner, hz, hrun⟩ := hends
  have hcall : e.call? = none := by cases e <;> first | rfl | cases ha
  have hsame := h.onward hs hns he
  rw [Edge.onward_of_call?_eq_none hcall, howner] at hsame
  exact ⟨r, z, hsame.symm, hz, .read hs hns he ha hrun⟩

theorem ends_call (hc : .call c ∈ st.followed) (hm : m + cost c ≤ n)
    (hcall : net.Ends State.followed cost m c.start u)
    (hends : net.Ends State.followed cost n c.follow w) :
    net.Ends State.followed cost n s (u ++ w) := by
  obtain ⟨r, z, howner, hz, hrun⟩ := hends
  obtain ⟨r', z', howner', hz', hrun'⟩ := hcall
  obtain rfl : c.rule = r' := Option.some.inj ((h.call hs hc).1.symm.trans howner')
  have hsame : net.ownerOf c.follow = net.ownerOf s := h.onward hs hns hc
  exact ⟨r, z, hsame ▸ howner, hz, .call hs hns hc hz' hm hrun' hrun⟩

end Regular

end Network

namespace Choice

open Relation Network

variable {s : Setting} {t t' : Trail} {root : Nat} {cost : Call → Nat} {st st' : State} {b : Bool}
  {n q z outer : Nat}
  {u w : List Int}

/-- The trail takes all the symbols, the end of input not set apart, and completes the outermost
rule. -/
inductive Course (s : Setting) : Trail → List Int → Prop
  | complete {t : Trail} : Completes s t → Course s t []
  | move {t t' : Trail} {w : List Int} : Moves s t t' → Course s t' w → Course s t w
  | read {t t' : Trail} {v : Int} {w : List Int} : Reads s v t t' → Course s t' w →
      Course s t (v :: w)

/-- The live invocations are to be ended after those that the trail has called. -/
def Setting.outside (s : Setting) : Nat → List Leg
  | 0 => []
  | outer + 1 => ⟨maxCalls, s.follow.getD outer 0⟩ :: s.outside outer

/-- Each call on the stack of a trail leaves room for those above it. -/
def legsOf : List Nat → List Leg
  | [] => []
  | q :: stack => ⟨maxCalls - stack.length, q⟩ :: legsOf stack

def Trail.legs (s : Setting) (t : Trail) : List Leg :=
  ⟨maxCalls - t.stack.length, t.state⟩ :: (legsOf t.stack ++ s.outside t.outer)

/-- The trail behind the decision, gone on to state `q`. -/
def Trail.at (t : Trail) (q : Nat) (b : Bool) : Trail :=
  { t with state := q, only := none, leftOrigin := b }

section viable

theorem viable_of_course (h : Course s t w) : Viable s w t := by
  induction h with
  | complete hc => exact ⟨_, .refl, .inl hc⟩
  | move hm _ ih =>
    obtain ⟨x, hx, hfits⟩ := ih
    exact ⟨x, hx.head hm, hfits⟩
  | read hr _ ih => exact ⟨_, .refl, _, hr, ih⟩

theorem viable_of_course_eof (h : Course s t (w ++ [Symbol.eof])) : Viable s w t := by
  generalize hw : w ++ [Symbol.eof] = w' at h
  induction h generalizing w with
  | complete => simp at hw
  | move hm _ ih =>
    obtain ⟨x, hx, hfits⟩ := ih hw
    exact ⟨x, hx.head hm, hfits⟩
  | read hr hrest ih =>
    cases w with
    | nil =>
      obtain ⟨rfl, rfl⟩ := List.cons.inj hw
      obtain ⟨x, hx, hfits⟩ := viable_of_course hrest
      exact ⟨_, .refl, .inr ⟨_, hr, x, hx, hfits.waits⟩⟩
    | cons v w =>
      obtain ⟨rfl, hrest⟩ := List.cons.inj hw
      exact ⟨_, .refl, _, hr, ih hrest⟩

end viable

section course

variable (hr : s.net.Regular root cost)
include hr

theorem moves_of_silent {e : Edge} (hlevel : s.precedence ≤ 0) (hs : s.net.states[q]? = some st)
    (hns : st.isRuleStop = false) (he : e ∈ st.followed) (hsilent : e.isSilent = true)
    (hcall : e.call? = none) : Moves s (t.at q b) (t.at e.target b) := by
  by_cases hprecedence : ∃ target level, e = .precedence target level
  · obtain ⟨target, level, rfl⟩ := hprecedence
    exact .precedence (t := t.at q b) hs hns he fun _ _ => hlevel.trans (hr.level hs he)
  · exact .silent (t := t.at q b) hs hns he hsilent hcall fun target level heq =>
      hprecedence ⟨target, level, heq⟩

omit hr in
theorem Course.of_stops (h : Course s (t.at z b) w) (hz : s.net.states[z]? = some st)
    (hstop : st.isRuleStop = true) (hq : s.net.states[q]? = some st')
    (hstop' : st'.isRuleStop = true) : Course s (t.at q b) w := by
  have same {x : State} (hx : s.net.states[z]? = some x) : x = st :=
    Option.some.inj (hx.symm.trans hz)
  cases h with
  | complete hc =>
    obtain ⟨-, -, -, hstack, houter⟩ := hc
    exact .complete ⟨st', hq, hstop', hstack, houter⟩
  | move hm hrest =>
    cases hm with
    | back _ _ hstack => exact .move (.back (t := t.at q b) hq hstop' hstack) hrest
    | out _ _ hstack houter hcaller =>
      exact .move (.out (t := t.at q b) hq hstop' hstack houter hcaller) hrest
    | push hx hns | tail hx hns | precedence hx hns | silent hx hns =>
      rw [same hx, hstop] at hns
      cases hns
  | read hread =>
    obtain ⟨x, e, hx, hns, -⟩ := hread
    rw [same hx, hstop] at hns
    cases hns

theorem course_of_run (hlevel : s.precedence ≤ 0)
    (hrun : s.net.Run State.followed cost Symbol.minToken s.net.maxToken n q z u) :
    ∀ {t : Trail} {w : List Int},
      t.stack.length + n ≤ maxCalls → (∀ b, Course s (t.at z b) w) →
      ∀ b, Course s (t.at q b) (u ++ w) := by
  induction hrun with
  | stop => exact fun _ hgo b => hgo b
  | silent hs hns he hsilent hcall _ ih =>
    intro t w hroom hgo b
    exact .move (moves_of_silent hr hlevel hs hns he hsilent hcall) (ih hroom hgo b)
  | @read n q z u st e v hs hns he ha _ ih =>
    intro t w hroom hgo b
    have hread : Reads s v (t.at q b) (t.at e.target b) := ⟨st, e, hs, hns, he, ha, rfl⟩
    exact .read hread (ih hroom hgo b)
  | @call m n q z y u u' st c hs hns he _ hm hrun hrun' ih ih' =>
    intro t w hroom hgo b
    obtain ⟨yst, hy, hystop⟩ := hrun.ends_at_stop
    obtain ⟨-, -, hcost⟩ := hr.call hs he
    rw [List.append_assoc]
    cases htail : c.optimizedTail with
    | true =>
      -- the rest of the rule takes nothing, so its stop stands for the stop of the called rule
      obtain ⟨zst, hz, hzstop⟩ := hrun'.ends_at_stop
      obtain rfl := (hr.tail hs he htail).1.run_eq_nil hrun'
      have htake : Moves s (t.at q b) (t.at c.start true) := .tail (t := t.at q b) hs hns he htail
      refine .move htake (ih ?_ (fun b' => ?_) true)
      · omega
      · exact (hgo b').of_stops hz hzstop hy hystop
    | false =>
      rw [htail, if_neg Bool.false_ne_true] at hcost
      have hpush : Moves s (t.at q b)
          (({ t with stack := c.follow :: t.stack } : Trail).at c.start b) :=
        .push (t := t.at q b) hs hns he htail (show t.stack.length < maxCalls by omega)
      refine .move hpush (ih ?_ (fun b' => ?_) b)
      · rw [List.length_cons]
        omega
      · have hback : Moves s (({ t with stack := c.follow :: t.stack } : Trail).at y b')
            (t.at c.follow b') :=
          .back (t := ({ t with stack := c.follow :: t.stack } : Trail).at y b') hy hystop rfl
        exact .move hback (ih' hroom hgo b')

theorem course_of_chained (hlevel : s.precedence ≤ 0) (hstack : t.stack = [])
    (houter : outer ≤ s.follow.size)
    (h : s.net.Chained State.followed cost (⟨maxCalls, q⟩ :: s.outside outer) w) :
    Course s ({ t with outer }.at q b) w := by
  induction outer generalizing q w b with
  | zero =>
    cases h with
    | cons hends hrest =>
      obtain ⟨r, z, -, -, hrun⟩ := hends
      obtain ⟨zst, hz, hstop⟩ := hrun.ends_at_stop
      cases hrest
      refine course_of_run hr hlevel hrun (t := { t with outer := 0 }) ?_ (fun b' => ?_) b
      · simp [hstack]
      · exact .complete ⟨zst, hz, hstop, hstack, rfl⟩
  | succ outer ih =>
    cases h with
    | cons hends hrest =>
      obtain ⟨r, z, -, -, hrun⟩ := hends
      obtain ⟨zst, hz, hstop⟩ := hrun.ends_at_stop
      refine course_of_run hr hlevel hrun (t := { t with outer := outer + 1 }) ?_ (fun b' => ?_) b
      · simp [hstack]
      · have hcaller : s.follow[outer]? = some (s.follow.getD outer 0) := by
          rw [Array.getD_eq_getD_getElem?, Array.getElem?_eq_getElem houter, Option.getD_some]
        have hout := Moves.out
          (t := ({ t with outer := outer + 1 } : Trail).at z b') hz hstop hstack rfl hcaller
        exact .move hout (ih (Nat.le_of_succ_le houter) hrest)

theorem ends_at_stop (hz : s.net.states[z]? = some st) (hstop : st.isRuleStop = true) :
    s.net.Ends State.followed cost n z [] := by
  obtain ⟨r, hrule, hend⟩ := hr.stop hz hstop
  exact ⟨r, z, (ownerOf_eq hz).trans hrule, hend, .stop hz hstop⟩

/-- Runs through the rules that a trail is inside of behind a move are, with the move, runs through
those that it was inside of before. -/
theorem chained_of_moves (hm : Moves s t t') (ht : t.only = none)
    (hrest : s.net.Chained State.followed cost (t'.legs s) w) :
    s.net.Chained State.followed cost (t.legs s) w := by
  cases hm with
  | back hst hstop hstack =>
    rw [Trail.legs, hstack]
    exact .cons (u := []) (ends_at_stop hr hst hstop) hrest
  | out hst hstop hstack houter hcaller =>
    rw [Trail.legs] at hrest ⊢
    rw [hstack, houter, Setting.outside, Array.getD_eq_getD_getElem?, hcaller]
    rw [hstack] at hrest
    exact .cons (u := []) (ends_at_stop hr hst hstop) hrest
  | push hst hns he htail hlt =>
    obtain ⟨-, -, hcost⟩ := hr.call hst (he.followed ht)
    rw [htail, if_neg Bool.false_ne_true] at hcost
    obtain _ | ⟨hcall, _ | ⟨hends, hrest⟩⟩ := hrest
    rw [← List.append_assoc]
    refine .cons (hr.ends_call hst hns (he.followed ht) ?_ hcall hends) hrest
    simp only [List.length_cons, hcost]
    omega
  | tail hst hns he htail =>
    have he := he.followed ht
    obtain ⟨-, -, hcost⟩ := hr.call hst he
    rw [htail, if_pos rfl] at hcost
    cases hrest with
    | @cons _ _ u w hcall hrest =>
      refine .cons ?_ hrest
      rw [← List.append_nil u]
      exact hr.ends_call hst hns he (by simp [hcost]) hcall ((hr.tail hst he htail).2 _)
  | precedence hst hns he =>
    obtain _ | ⟨hends, hrest⟩ := hrest
    exact .cons (hr.ends_silent hst hns (he.followed ht) rfl rfl hends) hrest
  | silent hst hns he hsilent hcall =>
    obtain _ | ⟨hends, hrest⟩ := hrest
    exact .cons (hr.ends_silent hst hns (he.followed ht) hsilent hcall hends) hrest

theorem chained_of_course (h : Course s t w) (ht : t.only = none) :
    s.net.Chained State.followed cost (t.legs s) w := by
  induction h with
  | complete hc =>
    obtain ⟨st, hst, hstop, hstack, houter⟩ := hc
    rw [Trail.legs, hstack, houter]
    exact .cons (ends_at_stop hr hst hstop) .nil
  | move hm _ ih => exact chained_of_moves hr hm ht (ih (hm.only_eq ht))
  | read hread _ ih =>
    obtain ⟨st, e, hst, hns, he, ha, rfl⟩ := hread
    obtain _ | ⟨hends, hrest⟩ := ih rfl
    rw [← List.cons_append]
    exact .cons (hr.ends_read hst hns (he.followed ht) ha hends) hrest

end course

section root

variable (hr : s.net.Regular root cost)
include hr

theorem rootLast_of_moves (hm : Moves s t t') (ht : t.only = none)
    (hl : s.net.RootLast root (t.legs s)) : s.net.RootLast root (t'.legs s) := by
  have same {st : State} {e : Edge} (hst : s.net.states[t.state]? = some st)
    (hns : st.isRuleStop = false)
      (he : t.Takes st e) (hcall : e.call? = none) :
          s.net.ownerOf e.target = s.net.ownerOf t.state := by
    rw [← Edge.onward_of_call?_eq_none hcall]
    exact hr.onward hst hns (he.followed ht)
  cases hm with
  | back _ _ hstack =>
    rw [Trail.legs, hstack] at hl
    exact hl.2
  | out _ _ hstack houter hcaller =>
    rw [Trail.legs, hstack, houter, Setting.outside, Array.getD_eq_getD_getElem?, hcaller] at hl
    rw [Trail.legs, hstack]
    exact hl.2
  | push hst hns he =>
    have he := he.followed ht
    obtain ⟨howner, hne, -⟩ := hr.call hst he
    refine ⟨fun hroot => ?_, hl.replace (hr.onward hst hns he)⟩
    exact (hne (Option.some.inj (howner.symm.trans hroot))).elim
  | tail hst hns he =>
    obtain ⟨howner, hne, -⟩ := hr.call hst (he.followed ht)
    exact ⟨fun hroot => (hne (Option.some.inj (howner.symm.trans hroot))).elim, hl.2⟩
  | precedence hst hns he => exact hl.replace (same hst hns he rfl)
  | silent hst hns he _ hcall => exact hl.replace (same hst hns he hcall)

theorem rootLast_of_reaches (h : ReflTransGen (Moves s) t t') (ht : t.only = none)
    (hl : s.net.RootLast root (t.legs s)) : s.net.RootLast root (t'.legs s) := by
  induction h with
  | refl => exact hl
  | tail hreach hm ih => exact rootLast_of_moves hr hm (reaches_only hreach ht) ih

theorem course_of_reads_eof (hlevel : s.precedence ≤ 0) (hread : Reads s Symbol.eof t t')
    (ht : t.only = none) (hl : s.net.RootLast root (t.legs s)) : Course s t [Symbol.eof] := by
  refine .read hread ?_
  obtain ⟨st, e, hst, -, he, ha, rfl⟩ := hread
  obtain ⟨howner, hends⟩ := hr.eof hst (he.followed ht) ha
  obtain ⟨hstack, houtside⟩ := List.append_eq_nil_iff.1 (hl.1 howner)
  have hstack : t.stack = [] := by
    cases hx : t.stack with
    | nil => rfl
    | cons => rw [hx] at hstack; cases hstack
  have houter : t.outer = 0 := by
    cases hx : t.outer with
    | zero => rfl
    | succ => rw [hx] at houtside; cases houtside
  obtain ⟨r, z, -, -, hrun⟩ := hends 0
  obtain ⟨zst, hz, hstop⟩ := hrun.ends_at_stop
  refine course_of_run hr hlevel hrun (t := t) ?_ (fun b' => ?_) t.leftOrigin
  · simp [hstack]
  · exact .complete ⟨zst, hz, hstop, hstack, houter⟩

/-- A trail that can take all the symbols completes the outermost rule, perhaps with the end of
input. -/
theorem course_of_viable (hlevel : s.precedence ≤ 0) (h : Viable s w t) (ht : t.only = none)
    (hl : s.net.RootLast root (t.legs s)) : Course s t w ∨ Course s t (w ++ [Symbol.eof]) := by
  have reached {t x : Trail} {w : List Int} (htx : ReflTransGen (Moves s) t x) (h : Course s x w) :
      Course s t w := by
    induction htx using ReflTransGen.head_induction_on with
    | refl => exact h
    | head hm _ ih => exact .move hm ih
  obtain ⟨x, htx, hfits⟩ := h
  have hl := rootLast_of_reaches hr htx ht hl
  have ht := reaches_only htx ht
  refine Or.imp (reached htx) (reached htx) ?_
  clear htx
  induction w generalizing x with
  | nil =>
    obtain hc | ⟨t', hread, -⟩ := hfits
    · exact .inl (.complete hc)
    · exact .inr (course_of_reads_eof hr hlevel hread ht hl)
  | cons v w ih =>
    obtain ⟨t', hread, y, hty, hfits⟩ := hfits
    have hnext : s.net.RootLast root (t'.legs s) ∧ t'.only = none := by
      obtain ⟨st, e, hst, hns, he, ha, rfl⟩ := hread
      have hcall : e.call? = none := by cases e <;> first | rfl | cases ha
      have hsame := hr.onward hst hns (he.followed ht)
      rw [Edge.onward_of_call?_eq_none hcall] at hsame
      exact ⟨hl.replace hsame, rfl⟩
    exact (ih y hfits (rootLast_of_reaches hr hty hnext.2 hnext.1) (reaches_only hty hnext.2)).imp
      (fun h => .read hread (reached hty h)) fun h => .read hread (reached hty h)

/--
A trail that stands in a live invocation can take all the symbols if and only if these, perhaps with
the end of input behind them, lead through the live invocations to the end of the outermost.
-/
theorem viable_iff_chained (hlevel : s.precedence ≤ 0) (ht : t.only = none) (hstack : t.stack = [])
    (houter : t.outer ≤ s.follow.size) (hl : s.net.RootLast root (t.legs s)) :
    Viable s w t ↔ s.net.Chained State.followed cost (⟨maxCalls, t.state⟩ :: s.outside t.outer) w ∨
      s.net.Chained State.followed cost (⟨maxCalls, t.state⟩ :: s.outside t.outer)
      (w ++ [Symbol.eof]) := by
  have hlegs : t.legs s = ⟨maxCalls, t.state⟩ :: s.outside t.outer := by
    rw [Trail.legs, hstack]
    rfl
  have hat : ({ t with outer := t.outer } : Trail).at t.state t.leftOrigin = t := by
    rw [Trail.at, ← ht]
  rw [← hlegs]
  constructor
  · intro h
    exact (course_of_viable hr hlevel h ht hl).imp (chained_of_course hr · ht)
      (chained_of_course hr · ht)
  · rw [hlegs]
    rintro (h | h)
    · exact viable_of_course (hat ▸ course_of_chained hr hlevel hstack houter h)
    · exact viable_of_course_eof (hat ▸ course_of_chained hr hlevel hstack houter h)

end root

end Choice

end GrammarWalk
