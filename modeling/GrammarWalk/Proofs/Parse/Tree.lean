import GrammarWalk.Parse.Tree
import GrammarWalk.Proofs.Outcome

/-! What each change of a parse tree does, node by node. A parse changes its tree in five ways only:
it adds a rule node, adds a node to the children of the current one, wraps the current node, lists a
node that is done under its parent, and notes something in a node. -/

namespace GrammarWalk

namespace Node

def mapRule (f : RuleNode → RuleNode) : Node → Node
  | rule r => rule (f r)
  | n => n

def children : Node → List Nat
  | rule r => r.children
  | _ => []

end Node

def RuleNode.addChild (r : RuleNode) (c : Nat) : RuleNode :=
  { r with children := r.children ++ [c] }

def RuleNode.dropChild (r : RuleNode) (c : Nat) : RuleNode :=
  { r with children := r.children.filter (· ≠ c) }

namespace Tree

variable {t u t' : Tree} {p c x : Nat} {r : RuleNode} {n m : Node} {f : RuleNode → RuleNode}

theorem lt_size (h : t.nodes[x]? = some n) : x < t.size := (Array.getElem?_eq_some_iff.1 h).1

theorem ne_size (h : t.nodes[x]? = some n) : x ≠ t.size := Nat.ne_of_lt (lt_size h)

theorem ruleNode?_of_getElem? (h : t.nodes[x]? = some (.rule r)) :
    t.ruleNode? x = .ok (some r) := by
  rw [ruleNode?, node, h]
  rfl

theorem rule_of_any {f : RuleNode → Bool} (h : (t.ruleNode? x).toOption.any (·.any f) = true) :
    ∃ r, t.nodes[x]? = some (.rule r) ∧ f r = true := by
  unfold ruleNode? node at h
  cases hx : t.nodes[x]? with
  | none =>
    rw [hx] at h
    cases h
  | some n =>
    rw [hx] at h
    cases n with
    | rule r => exact ⟨r, rfl, h⟩
    | leaf | error => cases h

section changes

/-- Node `x` becomes `n`, and no other node changes. -/
structure Sets (t t' : Tree) (x : Nat) (n : Node) : Prop where
  node : t'.nodes[x]? = some n
  other : ∀ y, y ≠ x → t'.nodes[y]? = t.nodes[y]?

/-- A new node is listed as the last child of `p`. -/
structure Attaches (t t' : Tree) (p : Nat) (r : RuleNode) (n : Node) : Prop where
  node : t'.nodes[t.size]? = some n
  parent : t'.nodes[p]? = some (.rule (r.addChild t.size))
  other : ∀ y, y ≠ t.size → y ≠ p → t'.nodes[y]? = t.nodes[y]?
  root : t'.root = t.root

/-- Node `c`, whose parent does not list it, is noted to be done and listed there. -/
structure Lists (t t' : Tree) (c : Nat) (r : RuleNode) (p : Nat) (q : RuleNode) : Prop where
  node : ∃ stop, t'.nodes[c]? = some (.rule { r with stop, parent := some p })
  parent : t'.nodes[p]? = some (.rule (q.addChild c))
  other : ∀ y, y ≠ c → y ≠ p → t'.nodes[y]? = t.nodes[y]?
  root : t'.root = t.root

/-- Node `c` becomes the one child of a new node of the same rule, which has its place below
`parent`. -/
structure Wraps (t t' : Tree) (c : Nat) (r : RuleNode) (parent invoking : Option Nat)
    (start : Nat) : Prop where
  node : t'.nodes[t.size]? =
    some (.rule { rule := r.rule, parent, invoking, children := [c], start := r.start })
  wrapped : ∃ stop, t'.nodes[c]? =
    some (.rule { r with parent := some t.size, invoking := some start, stop })
  /-- The old parent lists the node no more. -/
  unlisted : ∀ p, r.parent = some p → t'.nodes[p]? = t.nodes[p]?.map (Node.mapRule (·.dropChild c))
  other : ∀ y, y ≠ t.size → y ≠ c → r.parent ≠ some y → t'.nodes[y]? = t.nodes[y]?
  root : t'.root = if parent = none ∨ t.root = some c then some t.size else t.root

/-- Node `c` is done. If it is of a precedence rule, its parent does not list it before. -/
inductive Closes (t t' : Tree) (c : Nat) (r : RuleNode) : Bool → Prop
  | noted {precedence : Bool} {stop : Option Nat} : precedence = false ∨ r.parent = none →
      t.Sets t' c (.rule { r with stop }) → t'.root = t.root → Closes t t' c r precedence
  | listed {p : Nat} {q : RuleNode} : r.parent = some p → t.nodes[p]? = some (.rule q) →
      t.Lists t' c r p q → Closes t t' c r true

theorem modifyRule_spec (ht : t.modifyRule x f = .ok t') :
    (∀ y, t'.nodes[y]? = if x = y then t.nodes[y]?.map (Node.mapRule f) else t.nodes[y]?) ∧
      t'.root = t.root := by
  simp only [modifyRule, bind_eq_ok, pure_eq_ok] at ht
  obtain ⟨-, -, rfl⟩ := ht
  refine ⟨fun y => ?_, rfl⟩
  rw [Array.getElem?_modify]
  rfl

theorem modifyRule_sets (h : t.nodes[x]? = some (.rule r)) (ht : t.modifyRule x f = .ok t') :
    t.Sets t' x (.rule (f r)) ∧ t'.root = t.root := by
  obtain ⟨hnodes, hroot⟩ := modifyRule_spec ht
  refine ⟨⟨?_, fun y hy => ?_⟩, hroot⟩
  · rw [hnodes, if_pos rfl, h]
    rfl
  · rw [hnodes, if_neg hy.symm]

theorem addRule_sets (rule : Nat) (parent invoking : Option Nat) (start : Nat) :
    t.Sets (t.addRule rule parent invoking start).2 t.size
      (.rule { rule, parent, invoking, start }) := by
  refine ⟨?_, fun y hy => ?_⟩
  · simp [addRule, size]
  · simp only [addRule, size] at hy ⊢
    rw [Array.getElem?_push, if_neg hy]

theorem Sets.attaches (h : t.Sets u t.size n) (hroot : u.root = t.root)
    (hp : t.nodes[p]? = some (.rule r)) (ha : u.attach p t.size = .ok t') :
    t.Attaches t' p r n := by
  have hne := ne_size hp
  obtain ⟨hset, hroot'⟩ := modifyRule_sets ((h.other p hne).trans hp) ha
  refine ⟨(hset.other _ hne.symm).trans h.node, hset.node, fun y hy hyp => ?_, hroot'.trans hroot⟩
  rw [hset.other y hyp, h.other y hy]

theorem addToken_attaches {id : Nat} (hp : t.nodes[p]? = some (.rule r))
    (ht : t.addToken p n = .ok (id, t')) : t.Attaches t' p r n := by
  simp only [addToken, bind_eq_ok, pure_eq_ok, Prod.mk.injEq] at ht
  obtain ⟨u, hu, -, rfl⟩ := ht
  have hset : t.Sets { t with nodes := t.nodes.push n } t.size n := by
    refine ⟨by simp [size], fun y hy => ?_⟩
    rw [Array.getElem?_push]
    exact if_neg hy
  exact hset.attaches rfl hp hu

theorem lists_of_attach {stop : Option Nat} {q : RuleNode} (hc : t.nodes[c]? = some (.rule r))
    (hp : t.nodes[p]? = some (.rule q)) (hne : c ≠ p)
    (hu : t.modifyRule c (fun r => { r with stop, parent := some p }) = .ok u)
    (ht : u.attach p c = .ok t') : t.Lists t' c r p q := by
  obtain ⟨hdone, hroot⟩ := modifyRule_sets hc hu
  obtain ⟨hlist, hroot'⟩ := modifyRule_sets ((hdone.other p hne.symm).trans hp) ht
  refine ⟨⟨stop, (hlist.other c hne).trans hdone.node⟩, hlist.node, fun y hyc hyp => ?_,
    hroot'.trans hroot⟩
  rw [hlist.other y hyp, hdone.other y hyc]

/-- A node is moved in three steps: its old parent lists it no more, its parent is changed, the new
parent lists it. -/
theorem reparent_eq_ok {id : Nat} (h : t.reparent c id = .ok t') :
    ∃ (m : Node) (a b : Tree), t.nodes[c]? = some m ∧
    (∀ y, a.nodes[y]? = if m.parent? = some y then t.nodes[y]?.map (Node.mapRule (·.dropChild c))
      else t.nodes[y]?) ∧
    a.root = (if t.root = some c then some id else t.root) ∧
    a.modifyRule c (fun r => { r with parent := some id }) = .ok b ∧ b.attach id c = .ok t' := by
  simp only [reparent, node, bind_eq_ok, Fault.ofLookup_eq_ok] at h
  obtain ⟨m, hm, h⟩ := h
  generalize hw : (if t.root = some c then { t with root := some id } else t) = w at hm h
  have hnodes : w.nodes = t.nodes := by
    rw [← hw]
    split <;> rfl
  have hroot : w.root = if t.root = some c then some id else t.root := by
    rw [← hw]
    split <;> rfl
  rw [hnodes] at hm
  split at h
  · rename_i old hold
    obtain ⟨a, ha, b, hb, h⟩ := by simpa only [bind_eq_ok] using h
    obtain ⟨ha, haroot⟩ := modifyRule_spec ha
    refine ⟨m, a, b, hm, fun y => ?_, haroot.trans hroot, hb, h⟩
    rw [ha, hnodes, hold]
    simp only [Option.some.injEq]
    rfl
  · rename_i hold
    obtain ⟨a, ha, b, hb, h⟩ := by simpa only [bind_eq_ok, pure_eq_ok] using h
    subst ha
    refine ⟨m, w, b, hm, fun y => ?_, hroot, hb, h⟩
    rw [hold, hnodes, if_neg nofun]

theorem wraps_of_reparent {parent invoking stop : Option Nat} {start : Nat} {v : Tree}
    (hc : t.nodes[c]? = some (.rule r)) (hlt : ∀ p, r.parent = some p → p < c)
    (hv : (t.addRule r.rule parent invoking r.start).2.reparent c t.size = .ok v)
    (ht : v.modifyRule c (fun r => { r with invoking := some start, stop }) = .ok t') :
    t.Wraps t' c r parent invoking start := by
  have hne := ne_size hc
  have hadd := t.addRule_sets r.rule parent invoking r.start
  have huroot : (t.addRule r.rule parent invoking r.start).2.root =
    if parent.isNone then some t.size else t.root := rfl
  generalize (t.addRule r.rule parent invoking r.start).2 = u at hadd hv huroot
  obtain ⟨m, a, b, hm, ha, haroot, hb, hv⟩ := reparent_eq_ok hv
  rw [hadd.other c hne, hc] at hm
  obtain rfl := Option.some.inj hm
  have ha (y : Nat) : a.nodes[y]? =
      if r.parent = some y then u.nodes[y]?.map (Node.mapRule (·.dropChild c)) else u.nodes[y]? :=
        ha y
  -- neither the node nor the new one is the old parent
  have hself : r.parent ≠ some c := fun h => Nat.lt_irrefl c (hlt c h)
  have hnew : r.parent ≠ some t.size := fun h => by
    have := hlt _ h
    have := lt_size hc
    omega
  have hac : a.nodes[c]? = some (.rule r) := by rw [ha, if_neg hself, hadd.other c hne, hc]
  have hasize : a.nodes[t.size]? =
      some (.rule { rule := r.rule, parent, invoking, start := r.start }) := by
    rw [ha, if_neg hnew, hadd.node]
  obtain ⟨hb, hbroot⟩ := modifyRule_sets hac hb
  obtain ⟨hv, hvroot⟩ := modifyRule_sets ((hb.other _ hne.symm).trans hasize) hv
  obtain ⟨ht, htroot⟩ := modifyRule_sets ((hv.other c hne).trans hb.node) ht
  have rest {y : Nat} (hy : y ≠ t.size) (hyc : y ≠ c) : t'.nodes[y]? = a.nodes[y]? := by
    rw [ht.other y hyc, hv.other y hy, hb.other y hyc]
  refine ⟨?_, ⟨stop, ht.node⟩, fun p hp => ?_, fun y hy hyc hyp => ?_, ?_⟩
  · rw [ht.other _ hne.symm, hv.node]
    rfl
  · have hlt := hlt p hp
    have := lt_size hc
    rw [rest (by omega) (by omega), ha, if_pos hp, hadd.other p (by omega)]
  · rw [rest hy hyc, ha, if_neg hyp, hadd.other y hy]
  · rw [htroot, hvroot, hbroot, haroot, huroot]
    cases parent with
    | none => simp
    | some p => simp

end changes

end Tree

end GrammarWalk
