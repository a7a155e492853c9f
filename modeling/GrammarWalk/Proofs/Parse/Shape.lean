import GrammarWalk.Proofs.Parse.Parts
import GrammarWalk.Proofs.Tokens

/-! The shape of a parse tree as it grows. The nodes that are done hang together below the open
ones: each is listed once, by its parent. The tokens below the open nodes, the outermost first, are
those that the parse has gone past. -/

namespace GrammarWalk

/-- The token that a node stands for, if it is not one of a rule. -/
def Node.token? : Node → Option Nat
  | rule _ => none
  | leaf _ i | error _ i => some i

namespace Tree

open Relation (ReflTransGen)

variable {net : Network} {t t' : Tree} {s s' : List Part} {ts ts' : Tokens}
  {d : Option Nat} {p x y : Nat}
  {xs ys toks : List Nat}

/-- The parent that a node knows. -/
def parentOf (t : Tree) (x : Nat) : Option Nat := t.nodes[x]?.bind Node.parent?

/-- The children of a node that are done, which are all of them if the node is done itself. -/
inductive Owns (t : Tree) (s : List Part) : Nat → List Nat → Prop
  | opened {p : Part} : p ∈ s → Owns t s p.node p.done
  | settled {x : Nat} {r : RuleNode} : x ∉ openNodes s → t.nodes[x]? = some (.rule r) →
      Owns t s x r.children

/-- The nodes at which the way up along the parents ends: the open ones, and at the end the root. -/
def Top (t : Tree) (s : List Part) (x : Nat) : Prop := x ∈ openNodes s ∨ s = [] ∧ t.root = some x

def Up (t : Tree) (s : List Part) (x y : Nat) : Prop := t.Settled s x ∧ t.parentOf x = some y

/-- The nodes that are done are listed by their parents, once each, and by no other node. -/
structure Shaped (t : Tree) (s : List Part) : Prop where
  listed : ∀ {p : Nat} {xs : List Nat}, t.Owns s p xs → xs.Nodup ∧ ∀ x ∈ xs, t.Settled s x ∧
    t.parentOf x = some p
  found : ∀ {x : Nat}, t.Settled s x → (∃ p xs, t.Owns s p xs ∧ x ∈ xs) ∨ s = [] ∧ t.root = some x
  up : ∀ {x : Nat}, t.Settled s x → ∃ y, t.Top s y ∧ ReflTransGen (t.Up s) x y
  orphan : s = [] → ∃ root, t.root = some root ∧ t.Has root ∧ t.parentOf root = none

section builds

variable (h : Builds t ts t' s ts' s' d) (hnew : ∀ x, t'.Settled s' x ↔ t.Settled s x ∨ d = some x)
  (hkept : ∀ x, t.Settled s x → t'.nodes[x]? = t.nodes[x]?)

include h

theorem Builds.unsettled (hd : d = some x) : ¬ t.Settled s x := by
  have opened {p : Part} {s : List Part} : ¬ t.Settled (p :: s) p.node :=
    fun hx => hx.shut List.mem_cons_self
  cases h with
  | note | enter => cases hd
  | token =>
    obtain rfl := Option.some.inj hd
    exact fun hx => not_has_size hx.there
  | wrap | leave | finish =>
    obtain rfl := Option.some.inj hd
    exact opened

theorem Builds.done_rule {r : RuleNode} (hd : d = some x) (hr : t'.nodes[x]? = some (.rule r)) :
    ∃ p l, s = p :: l ∧ x = p.node ∧ r.rule = p.rule ∧ r.children = p.done := by
  cases h with
  | note | enter => cases hd
  | token hnode hn =>
    obtain rfl := Option.some.inj hd
    rw [hnode] at hr
    rcases hn with rfl | rfl <;> cases hr
  | wrap hnode hrule _ hchildren | leave hnode hrule _ hchildren | finish hnode hrule _ hchildren =>
    obtain rfl := Option.some.inj hd
    obtain rfl := Node.rule.inj (Option.some.inj (hnode.symm.trans hr))
    exact ⟨_, _, rfl, rfl, hrule, hchildren⟩

theorem Builds.open_stays (hx : x ∈ openNodes s) : x ∈ openNodes s' ∨ d = some x := by
  cases h with
  | note | token => exact .inl hx
  | enter => exact .inl (List.mem_cons_of_mem _ hx)
  | wrap =>
    rcases List.mem_cons.1 hx with rfl | hx
    · exact .inr rfl
    · exact .inl (List.mem_cons_of_mem _ hx)
  | leave | finish =>
    rcases List.mem_cons.1 hx with rfl | hx
    · exact .inr rfl
    · exact .inl hx

theorem Builds.done_listed (hroots : t.Roots s) (hd : d = some x) :
    (∃ p ∈ s', x ∈ p.done ∧ t'.parentOf x = some p.node) ∨ s' = [] ∧ t'.root = some x := by
  cases h with
  | note | enter => cases hd
  | token hnode hn =>
    obtain rfl := Option.some.inj hd
    refine .inl ⟨_, List.mem_cons_self, by simp, ?_⟩
    rw [parentOf, hnode]
    rcases hn with rfl | rfl <;> rfl
  | wrap hnode _ hparent | leave hnode _ hparent =>
    obtain rfl := Option.some.inj hd
    refine .inl ⟨_, List.mem_cons_self, by simp, ?_⟩
    rw [parentOf, hnode]
    exact hparent
  | finish hnode _ _ _ hroot =>
    obtain rfl := Option.some.inj hd
    exact .inr ⟨rfl, hroot.trans (hroots (List.cons_ne_nil _ _))⟩

include hnew hkept

theorem Builds.owns_after (ho : t.Owns s p xs) : ∃ ys, t'.Owns s' p ys ∧ xs ⊆ ys := by
  have closed {q : Part} {r : RuleNode} (hnode : t'.nodes[q.node]? = some (.rule r))
    (hchildren : r.children = q.done)
      (hd : d = some q.node) : ∃ ys, t'.Owns s' q.node ys ∧ q.done ⊆ ys :=
    ⟨_, .settled ((hnew _).2 (.inr hd)).shut hnode, hchildren ▸ List.Subset.refl _⟩
  cases ho with
  | settled hx hr =>
    have hsettled : t.Settled s p := ⟨⟨_, hr⟩, hx⟩
    exact ⟨_, .settled ((hnew p).2 (.inl hsettled)).shut ((hkept p hsettled).trans hr),
      List.Subset.refl _⟩
  | @opened q hq =>
    cases h with
    | note => exact ⟨_, .opened hq, List.Subset.refl _⟩
    | enter => exact ⟨_, .opened (List.mem_cons_of_mem _ hq), List.Subset.refl _⟩
    | token =>
      rcases List.mem_cons.1 hq with rfl | hq
      · exact ⟨_, .opened (p := { q with done := q.done ++ [t.size] }) List.mem_cons_self,
          List.subset_append_left _ _⟩
      · exact ⟨_, .opened (List.mem_cons_of_mem _ hq), List.Subset.refl _⟩
    | wrap hnode _ _ hchildren =>
      rcases List.mem_cons.1 hq with rfl | hq
      · exact closed hnode hchildren rfl
      · exact ⟨_, .opened (List.mem_cons_of_mem _ hq), List.Subset.refl _⟩
    | @leave p _ _ _ hnode _ _ hchildren =>
      rcases List.mem_cons.1 hq with rfl | hq
      · exact closed hnode hchildren rfl
      rcases List.mem_cons.1 hq with rfl | hq
      · exact ⟨_, .opened (p := { q with done := q.done ++ [p.node] }) List.mem_cons_self,
          List.subset_append_left _ _⟩
      · exact ⟨_, .opened (List.mem_cons_of_mem _ hq), List.Subset.refl _⟩
    | finish hnode _ _ hchildren =>
      obtain rfl := List.mem_singleton.1 hq
      exact closed hnode hchildren rfl

/-- What a node owns after a move it owned before, but for the node that is done with the move. -/
theorem Builds.owns_before (ho : t'.Owns s' p xs) : ∃ ys, (ys = [] ∨ t.Owns s p ys) ∧
    (xs = ys ∨ ∃ x, d = some x ∧ xs = ys ++ [x] ∧ t'.parentOf x = some p) := by
  have same {q : Part} (hq : q ∈ s) : ∃ ys, (ys = [] ∨ t.Owns s q.node ys) ∧
      (q.done = ys ∨ ∃ x, d = some x ∧ q.done = ys ++ [x] ∧ t'.parentOf x = some q.node) :=
    ⟨_, .inr (.opened hq), .inl rfl⟩
  cases ho with
  | @settled _ r hx hr =>
    rcases (hnew p).1 ⟨⟨_, hr⟩, hx⟩ with hsettled | hd
    · exact ⟨_, .inr (.settled hsettled.shut ((hkept p hsettled).symm.trans hr)), .inl rfl⟩
    · have closed {q : Part} {r' : RuleNode} (hq : q ∈ s)
        (hnode : t'.nodes[q.node]? = some (.rule r'))
          (hchildren : r'.children = q.done) (hqp : q.node = p) : ∃ ys, (ys = [] ∨ t.Owns s p ys) ∧
          (r.children = ys ∨ ∃ x, d = some x ∧ r.children = ys ++ [x] ∧
          t'.parentOf x = some p) := by
        subst hqp
        obtain rfl := Node.rule.inj (Option.some.inj (hnode.symm.trans hr))
        exact ⟨_, .inr (.opened hq), .inl hchildren⟩
      cases h with
      | note | enter => cases hd
      | token hnode hn =>
        obtain rfl := Option.some.inj hd
        obtain rfl := Option.some.inj (hnode.symm.trans hr)
        rcases hn with hn | hn <;> cases hn
      | wrap hnode _ _ hchildren =>
        exact closed List.mem_cons_self hnode hchildren (Option.some.inj hd)
      | leave hnode _ _ hchildren =>
        exact closed List.mem_cons_self hnode hchildren (Option.some.inj hd)
      | finish hnode _ _ hchildren =>
        exact closed List.mem_cons_self hnode hchildren (Option.some.inj hd)
  | opened hq =>
    cases h with
    | note => exact same hq
    | enter =>
      rcases List.mem_cons.1 hq with rfl | hq
      · exact ⟨[], .inl rfl, .inl rfl⟩
      · exact same hq
    | @token q s n hnode hn =>
      rcases List.mem_cons.1 hq with rfl | hq
      · refine ⟨q.done, .inr (.opened List.mem_cons_self), .inr ⟨_, rfl, rfl, ?_⟩⟩
        rw [parentOf, hnode]
        rcases hn with rfl | rfl <;> rfl
      · exact same (List.mem_cons_of_mem _ hq)
    | wrap hnode _ hparent =>
      rcases List.mem_cons.1 hq with rfl | hq
      · refine ⟨[], .inl rfl, .inr ⟨_, rfl, rfl, ?_⟩⟩
        rw [parentOf, hnode]
        exact hparent
      · exact same (List.mem_cons_of_mem _ hq)
    | @leave _ q s r hnode _ hparent =>
      rcases List.mem_cons.1 hq with rfl | hq
      · refine ⟨q.done, .inr (.opened (List.mem_cons_of_mem _ List.mem_cons_self)),
          .inr ⟨_, rfl, rfl, ?_⟩⟩
        rw [parentOf, hnode]
        exact hparent
      · exact same (List.mem_cons_of_mem _ (List.mem_cons_of_mem _ hq))
    | finish => cases hq

end builds

theorem Shaped.grows (hshape : t.Shaped s) (hs : s ≠ []) (hroots : t.Roots s)
    (h : Grows net t ts s t' ts' s') : t'.Shaped s' := by
  obtain ⟨⟨d, hb, hnew⟩, hkept, -, -⟩ := h
  have parent {x : Nat} (hx : t.Settled s x) : t'.parentOf x = t.parentOf x := by
    rw [parentOf, parentOf, hkept x hx]
  have up {x y : Nat} (h : ReflTransGen (t.Up s) x y) : ReflTransGen (t'.Up s') x y :=
    h.lift id fun a b hab => ⟨(hnew a).2 (.inl hab.1), (parent hab.1).trans hab.2⟩
  -- the way up from the node that is done with the move
  have upDone {x : Nat} (hd : d = some x) : ∃ y, t'.Top s' y ∧ ReflTransGen (t'.Up s') x y := by
    rcases hb.done_listed hroots hd with ⟨p, hp, -, hparent⟩ | htop
    · exact ⟨p.node, .inl (List.mem_map_of_mem hp), .single ⟨(hnew x).2 (.inr hd), hparent⟩⟩
    · exact ⟨x, .inr htop, .refl⟩
  refine ⟨fun {p xs} ho => ?_, fun {x} hx => ?_, fun {x} hx => ?_, fun hnil => ?_⟩
  · obtain ⟨ys, hys, hxs⟩ := hb.owns_before hnew hkept ho
    obtain ⟨hnodup, hall⟩ : ys.Nodup ∧ ∀ x ∈ ys, t'.Settled s' x ∧ t'.parentOf x = some p ∧
        t.Settled s x := by
      obtain rfl | hys := hys
      · exact ⟨List.nodup_nil, nofun⟩
      · obtain ⟨hnodup, hall⟩ := hshape.listed hys
        exact ⟨hnodup, fun x hx => ⟨(hnew x).2 (.inl (hall x hx).1),
          (parent (hall x hx).1).trans (hall x hx).2, (hall x hx).1⟩⟩
    obtain rfl | ⟨x, hd, rfl, hparent⟩ := hxs
    · exact ⟨hnodup, fun x hx => ⟨(hall x hx).1, (hall x hx).2.1⟩⟩
    · refine ⟨List.nodup_append.2 ⟨hnodup, List.nodup_singleton x, ?_⟩, fun y hy => ?_⟩
      · rintro y hy _ hx rfl
        obtain rfl := List.mem_singleton.1 hx
        exact hb.unsettled hd (hall y hy).2.2
      · rcases List.mem_append.1 hy with hy | hy
        · exact ⟨(hall y hy).1, (hall y hy).2.1⟩
        · obtain rfl := List.mem_singleton.1 hy
          exact ⟨(hnew y).2 (.inr hd), hparent⟩
  · rcases (hnew x).1 hx with hx | hd
    · obtain ⟨p, xs, ho, hmem⟩ | ⟨hnil, -⟩ := hshape.found hx
      · obtain ⟨ys, hys, hsub⟩ := hb.owns_after hnew hkept ho
        exact .inl ⟨p, ys, hys, hsub hmem⟩
      · exact absurd hnil hs
    · rcases hb.done_listed hroots hd with ⟨p, hp, hmem, -⟩ | htop
      · exact .inl ⟨p.node, p.done, .opened hp, hmem⟩
      · exact .inr htop
  · rcases (hnew x).1 hx with hx | hd
    · obtain ⟨y, hy | ⟨hnil, -⟩, hxy⟩ := hshape.up hx
      · rcases hb.open_stays hy with hy | hd
        · exact ⟨y, .inl hy, up hxy⟩
        · obtain ⟨z, hz, hyz⟩ := upDone hd
          exact ⟨z, hz, (up hxy).trans hyz⟩
      · exact absurd hnil hs
    · exact upDone hd
  · cases hb with
    | note => exact absurd hnil hs
    | @finish p _ hnode _ hparent _ hroot =>
      refine ⟨p.node, hroot.trans (hroots hs), ⟨_, hnode⟩, ?_⟩
      rw [parentOf, hnode]
      exact hparent
    | token | enter | wrap | leave => cases hnil

/-- The nodes form a tree: each node but the root is listed once, by the node that it knows as its
parent, no node lists any other, and the way up ends at the root. -/
structure IsTree (t : Tree) (root : Nat) : Prop where
  top : t.root = some root ∧ t.Has root ∧ t.parentOf root = none
  listed : ∀ {x : Nat}, t.Has x → x ≠ root → ∃ p r, t.parentOf x = some p ∧
    t.nodes[p]? = some (.rule r) ∧
    r.children.count x = 1
  children : ∀ {p x : Nat} {r : RuleNode}, t.nodes[p]? = some (.rule r) → x ∈ r.children →
    t.Has x ∧ t.parentOf x = some p
  up : ∀ {x : Nat}, t.Has x → ReflTransGen (fun x y => t.parentOf x = some y) x root

theorem Shaped.isTree (h : t.Shaped []) : ∃ root, t.IsTree root := by
  obtain ⟨root, hroot, hhas, hnone⟩ := h.orphan rfl
  have settled {x : Nat} (hx : t.Has x) : t.Settled [] x := ⟨hx, List.not_mem_nil⟩
  refine ⟨root, ⟨hroot, hhas, hnone⟩, fun {x} hx hne => ?_, fun {p x r} hr hx => ?_,
    fun {x} hx => ?_⟩
  · obtain ⟨p, xs, ho, hmem⟩ | ⟨-, htop⟩ := h.found (settled hx)
    · obtain ⟨hnodup, hall⟩ := h.listed ho
      cases ho with
      | settled _ hr => exact ⟨p, _, (hall x hmem).2, hr, List.count_eq_one_of_mem hnodup hmem⟩
      | opened hq => cases hq
    · exact absurd (Option.some.inj (htop.symm.trans hroot)) hne
  · obtain ⟨hx, hparent⟩ := (h.listed (.settled List.not_mem_nil hr)).2 x hx
    exact ⟨hx.there, hparent⟩
  · obtain ⟨y, hy | ⟨-, hy⟩, hxy⟩ := h.up (settled hx)
    · cases hy
    · obtain rfl := Option.some.inj (hy.symm.trans hroot)
      exact hxy.lift id fun _ _ hab => hab.2

section leaves

/-- The tokens below some nodes, from left to right. -/
inductive Yields (t : Tree) : List Nat → List Nat → Prop
  | nil : Yields t [] []
  | token {x i : Nat} {n : Node} {xs is : List Nat} : t.nodes[x]? = some n → n.token? = some i →
      Yields t xs is →
      Yields t (x :: xs) (i :: is)
  | rule {x : Nat} {r : RuleNode} {xs is js : List Nat} : t.nodes[x]? = some (.rule r) →
      Yields t r.children is →
      Yields t xs js → Yields t (x :: xs) (is ++ js)

/-- The tokens below open nodes, the outermost first; at the end, those below the root. -/
inductive Frontier (t : Tree) : List Part → List Nat → Prop
  | root {p : Part} {is : List Nat} : t.Yields p.done is → Frontier t [p] is
  | cons {p q : Part} {s : List Part} {is js : List Nat} : t.Yields p.done js →
      Frontier t (q :: s) is →
      Frontier t (p :: q :: s) (is ++ js)
  | ended {root : Nat} {is : List Nat} : t.root = some root → t.Yields [root] is → Frontier t [] is

variable {is js : List Nat} {q r : Part}

theorem Yields.append (h : t.Yields xs is) (h' : t.Yields ys js) :
    t.Yields (xs ++ ys) (is ++ js) := by
  induction h with
  | nil => exact h'
  | token hx hi _ ih => exact .token hx hi ih
  | rule hx hr _ _ ih =>
    rw [List.append_assoc]
    exact .rule hx hr ih

theorem Yields.kept (hshape : t.Shaped s) (hkept : ∀ x, t.Settled s x → t'.nodes[x]? = t.nodes[x]?)
    (h : t.Yields xs is) (hxs : ∀ x ∈ xs, t.Settled s x) : t'.Yields xs is := by
  induction h with
  | nil => exact .nil
  | token hx hi _ ih =>
    exact .token ((hkept _ (hxs _ List.mem_cons_self)).trans hx) hi
      (ih fun y hy => hxs y (List.mem_cons_of_mem _ hy))
  | rule hx _ _ ihr ih =>
    have hsettled := hxs _ List.mem_cons_self
    refine .rule ((hkept _ hsettled).trans hx) (ihr fun y hy => ?_)
      (ih fun y hy => hxs y (List.mem_cons_of_mem _ hy))
    exact ((hshape.listed (.settled hsettled.shut hx)).2 y hy).1

theorem Frontier.head (h : t.Frontier (q :: s) is) : ∃ is' js, is = is' ++ js ∧ t.Yields q.done js ∧
    ∀ r ks, t.Yields r.done ks → t.Frontier (r :: s) (is' ++ ks) := by
  cases h with
  | root hq => exact ⟨[], is, rfl, hq, fun _ _ hr => .root hr⟩
  | cons hq hs => exact ⟨_, _, rfl, hq, fun _ _ hr => .cons hr hs⟩

theorem Frontier.kept (hshape : t.Shaped s')
    (hkept : ∀ x, t.Settled s' x → t'.nodes[x]? = t.nodes[x]?) (h : t.Frontier s is) (hs : s ≠ [])
    (hsub : s ⊆ s') : t'.Frontier s is := by
  have yields {q : Part} {js : List Nat} (hq : q ∈ s') (hy : t.Yields q.done js) :
      t'.Yields q.done js :=
    hy.kept hshape hkept fun x hx => ((hshape.listed (.opened hq)).2 x hx).1
  induction h with
  | root hq => exact .root (yields (hsub List.mem_cons_self) hq)
  | cons hq _ ih =>
    exact .cons (yields (hsub List.mem_cons_self) hq)
      (ih (List.cons_ne_nil _ _) fun x hx => hsub (List.mem_cons_of_mem _ hx))
  | ended => exact absurd rfl hs

theorem Frontier.grows (hshape : t.Shaped s) (hroots : t.Roots s) (hs : s ≠ [])
    (h : t.Frontier s is) (hg : Grows net t ts s t' ts' s') :
    ∃ is', t'.Frontier s' is' ∧
      (is' = is ∧ ts' = ts ∨ is' = is ++ [ts.position] ∧ ts' = ts.advance) := by
  obtain ⟨⟨d, hb, hnew⟩, hkept, -, -⟩ := hg
  have hold := h.kept hshape hkept hs (List.Subset.refl _)
  cases hb with
  | note => exact ⟨is, hold, .inl ⟨rfl, rfl⟩⟩
  | enter =>
    refine ⟨is ++ [], .cons .nil hold, .inl ⟨List.append_nil _, rfl⟩⟩
  | token hnode hn =>
    obtain ⟨is', js, rfl, hq, hreplace⟩ := hold.head
    refine ⟨_, hreplace _ _ (hq.append (.token hnode (i := ts.position) ?_ .nil)), .inr ⟨?_, rfl⟩⟩
    · rcases hn with rfl | rfl <;> rfl
    · rw [List.append_assoc]
  | wrap hnode _ _ hchildren =>
    obtain ⟨is', js, rfl, hq, hreplace⟩ := hold.head
    have hdone : t'.Yields [_] (js ++ []) := .rule hnode (hchildren ▸ hq) .nil
    refine ⟨_, hreplace _ _ hdone, .inl ⟨?_, rfl⟩⟩
    rw [List.append_nil]
  | leave hnode _ _ hchildren =>
    cases hold with
    | cons hp hrest =>
      obtain ⟨is', js, rfl, hq, hreplace⟩ := hrest.head
      refine ⟨_, hreplace _ _ (hq.append (.rule hnode (hchildren ▸ hp) .nil)), .inl ⟨?_, rfl⟩⟩
      rw [List.append_nil, List.append_assoc]
  | finish hnode _ _ hchildren hroot =>
    cases hold with
    | root hp =>
      refine ⟨is ++ [], .ended (hroot.trans (hroots hs)) (.rule hnode (hchildren ▸ hp) .nil),
        .inl ⟨?_, rfl⟩⟩
      rw [List.append_nil]

/-- The tokens in the tree, but for ends of input, are those on the default channel before the
cursor. -/
def Passed (t : Tree) (s : List Part) (ts : Tokens) : Prop :=
  ∃ is, t.Frontier s is ∧ is.filter (fun i => !(ts.get i).isEnd) = ts.readBefore

theorem Passed.grows (hshape : t.Shaped s) (hroots : t.Roots s) (hs : s ≠ []) (hready : ts.Ready)
    (h : t.Passed s ts) (hg : Grows net t ts s t' ts' s') : t'.Passed s' ts' ∧ ts'.Ready := by
  obtain ⟨is, hfrontier, hread⟩ := h
  obtain ⟨is', hfrontier', ⟨rfl, rfl⟩ | ⟨rfl, rfl⟩⟩ := hfrontier.grows hshape hroots hs hg
  · exact ⟨⟨is', hfrontier', hread⟩, hready⟩
  · refine ⟨⟨_, hfrontier', ?_⟩, hready.advance⟩
    rw [Tokens.get_advance, List.filter_append, hread, Tokens.readBefore_advance hready]
    cases hend : ts.current.isEnd with
    | true =>
      have : (ts.get ts.position).isEnd = true := hend
      simp [this]
    | false =>
      have : (ts.get ts.position).isEnd = false := hend
      simp [this]

end leaves

end Tree

end GrammarWalk
