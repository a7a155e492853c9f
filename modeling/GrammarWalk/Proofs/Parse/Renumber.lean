import GrammarWalk.Parse.Walker
import GrammarWalk.Proofs.Tokens.Visible

/-! Trees and failures name tokens by their places. With the places changed, every operation on a
tree does the same: nothing but the places differs. -/

namespace GrammarWalk

/-- Two computations both fail, with errors that are related, or both come to results that are. -/
def Agree {ε ε' α β : Type} (E : ε → ε' → Prop) (R : α → β → Prop) : Except ε α → Except ε' β → Prop
  | .ok a, .ok b => R a b
  | .error e, .error e' => E e e'
  | _, _ => False

section agree

variable {ε ε' α α' β β' : Type} {E : ε → ε' → Prop} {R : α → α' → Prop} {S : β → β' → Prop}
  {x : Except ε α}
  {x' : Except ε' α'}

theorem Agree.pure {a : α} {a' : α'} (h : R a a') : Agree E R (pure a) (pure a') := h

theorem Agree.bind {f : α → Except ε β} {f' : α' → Except ε' β'} (hx : Agree E R x x')
    (hf : ∀ a a', R a a' → Agree E S (f a) (f' a')) : Agree E S (x >>= f) (x' >>= f') := by
  match x, x', hx with
  | .ok a, .ok a', hx => exact hf a a' hx
  | .error e, .error e', hx => exact hx

theorem Agree.imp {R' : α → α' → Prop} (hx : Agree E R x x') (h : ∀ a a', R a a' → R' a a') :
    Agree E R' x x' := by
  match x, x', hx with
  | .ok a, .ok a', hx => exact h a a' hx
  | .error e, .error e', hx => exact hx

theorem agree_refl (x : Except ε α) : Agree Eq Eq x x := by
  cases x <;> rfl

theorem Agree.same {f : α → Except ε β} {f' : α → Except ε β'} (x : Except ε α)
    (hf : ∀ a, Agree Eq S (f a) (f' a)) : Agree Eq S (x >>= f) (x >>= f') :=
  (agree_refl x).bind fun a _ h => h ▸ hf a

end agree

variable {r : Nat → Nat}

def Failure.renumber (r : Nat → Nat) : Failure → Failure
  | .noAlternative state start offending => .noAlternative state (r start) (r offending)
  | .mismatch state offending expected => .mismatch state (r offending) expected
  | .predicate state rule offending text => .predicate state rule (r offending) text

@[simp] theorem Failure.state_renumber (f : Failure) : (f.renumber r).state = f.state := by
  cases f <;> rfl

def RuleNode.renumber (r : Nat → Nat) (n : RuleNode) : RuleNode :=
  { n with start := r n.start, stop := n.stop.map r, failure := n.failure.map (Failure.renumber r) }

def Node.renumber (r : Nat → Nat) : Node → Node
  | .rule n => .rule (n.renumber r)
  | .leaf parent token => .leaf parent (r token)
  | .error parent token => .error parent (r token)

@[simp] theorem Node.parent?_renumber (n : Node) : (n.renumber r).parent? = n.parent? := by
  cases n <;> rfl

namespace Tree

def renumber (r : Nat → Nat) (t : Tree) : Tree := { t with nodes := t.nodes.map (Node.renumber r) }

variable {t : Tree}

@[simp] theorem root_renumber (t : Tree) : (t.renumber r).root = t.root := rfl

@[simp] theorem size_renumber (t : Tree) : (t.renumber r).size = t.size := Array.size_map

theorem node_renumber (id : Nat) :
    Agree Eq (fun n n' => n' = n.renumber r) (t.node id) ((t.renumber r).node id) := by
  rw [node, node, renumber, Array.getElem?_map]
  cases t.nodes[id]? <;> rfl

theorem ruleNode?_renumber (id : Nat) :
    Agree Eq (fun n n' => n' = n.map (RuleNode.renumber r)) (t.ruleNode? id)
      ((t.renumber r).ruleNode? id) := by
  refine (node_renumber id).bind fun n n' hn => ?_
  subst hn
  cases n <;> exact Agree.pure rfl

theorem map_modify {g g' : Node → Node} (hg : ∀ n, g' (n.renumber r) = (g n).renumber r)
    (ns : Array Node) (id : Nat) :
    (ns.map (Node.renumber r)).modify id g' = (ns.modify id g).map (Node.renumber r) := by
  refine Array.ext_getElem? fun i => ?_
  simp only [Array.getElem?_modify, Array.getElem?_map]
  split
  · simp only [Option.map_map, Function.comp_def, hg]
  · rfl

theorem modifyRule_renumber {f f' : RuleNode → RuleNode}
    (hf : ∀ n, f' (n.renumber r) = (f n).renumber r) (id : Nat) :
    Agree Eq (fun u u' => u' = u.renumber r) (t.modifyRule id f)
      ((t.renumber r).modifyRule id f') := by
  refine (node_renumber id).bind fun _ _ _ => Agree.pure ?_
  simp only [renumber, Tree.mk.injEq, and_true]
  refine map_modify (fun n => ?_) t.nodes id
  cases n with
  | rule n => exact congrArg Node.rule (hf n)
  | leaf => rfl
  | error => rfl

theorem addRule_renumber {rule start : Nat} {parent invoking : Option Nat} :
    (t.renumber r).addRule rule parent invoking (r start) =
      ((t.addRule rule parent invoking start).1,
      (t.addRule rule parent invoking start).2.renumber r) := by
  simp [addRule, renumber, size, Node.renumber, RuleNode.renumber]

theorem attach_renumber (parent child : Nat) :
    Agree Eq (fun u u' => u' = u.renumber r) (t.attach parent child)
      ((t.renumber r).attach parent child) :=
  modifyRule_renumber (fun _ => by rfl) parent

theorem addToken_renumber (parent : Nat) (n : Node) :
    Agree Eq (fun p p' => p' = (p.1, p.2.renumber r)) (t.addToken parent n)
      ((t.renumber r).addToken parent (n.renumber r)) := by
  have hpush : ({ t.renumber r with nodes := (t.renumber r).nodes.push (n.renumber r) } : Tree) =
      ({ t with nodes := t.nodes.push n } : Tree).renumber r := by
    simp [renumber]
  rw [addToken, addToken, hpush, size_renumber]
  refine (attach_renumber parent t.size).bind fun u u' hu => ?_
  exact hu ▸ Agree.pure rfl

theorem reparent_renumber (child parent : Nat) :
    Agree Eq (fun u u' => u' = u.renumber r) (t.reparent child parent)
      ((t.renumber r).reparent child parent) := by
  have hroot : (if (t.renumber r).root = some child then { t.renumber r with root := some parent }
      else t.renumber r) =
      (if t.root = some child then { t with root := some parent } else t).renumber r := by
    rw [root_renumber]
    split <;> rfl
  have hlast (u : Tree) : Agree Eq (fun u u' => u' = u.renumber r)
      (u.modifyRule child (fun n => { n with parent := some parent }) >>= fun u =>
        u.attach parent child)
      ((u.renumber r).modifyRule child (fun n => { n with parent := some parent }) >>= fun u =>
          u.attach parent child) := by
    refine (modifyRule_renumber (fun _ => by rfl) child).bind fun v v' hv => ?_
    exact hv ▸ attach_renumber parent child
  unfold reparent
  rw [hroot]
  refine (node_renumber child).bind fun n n' hn => ?_
  rw [hn, Node.parent?_renumber]
  cases n.parent? with
  | none => exact hlast _
  | some old =>
    refine (modifyRule_renumber (fun _ => by rfl) old).bind fun v v' hv => ?_
    exact hv ▸ hlast v

end Tree

end GrammarWalk
