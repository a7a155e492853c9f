import GrammarWalk.Proofs.Parse.Choice
import GrammarWalk.Proofs.Parse.Growth

/-! The paths behind a parse tree. As long as nothing fails, the children of each node are what the
parse took on a path through the node's rule: the open nodes have come to where the parse stands or
to the call of the next rule, and the nodes that are done have come to a stop of their rule. -/

namespace GrammarWalk

namespace Tree

variable {net : Network} {t t' : Tree} {get : Nat → Token} {start s u x : Nat}
  {xs : List Nat} {p q : Part}
  {l l' : List Part} {r : RuleNode}

/-- The nodes, one after the other, trace a path of raw edges: a leaf an edge that its token fits, a
rule node a call of its rule, behind which the path goes on in the follow state of the call. No
other edge takes a node. -/
inductive Traces (net : Network) (t : Tree) (get : Nat → Token) (start : Nat) :
    List Nat → Nat → Prop
  | here : Traces net t get start [] start
  | silent {xs : List Nat} {s : Nat} {st : State} {e : Edge} : Traces net t get start xs s →
      net.states[s]? = some st → st.isRuleStop = false → e ∈ st.edges → e.isSilent = true →
      e.call? = none →
      Traces net t get start xs e.target
  | token {xs : List Nat} {s x p i : Nat} {st : State} {e : Edge} : Traces net t get start xs s →
      net.states[s]? = some st → st.isRuleStop = false → e ∈ st.edges →
      t.nodes[x]? = some (.leaf p i) →
      e.fits (get i).type net.maxToken = true → Traces net t get start (xs ++ [x]) e.target
  | call {xs : List Nat} {s x : Nat} {st : State} {k : Call} {r : RuleNode} :
      Traces net t get start xs s →
      net.states[s]? = some st → st.isRuleStop = false → .call k ∈ st.edges →
      t.nodes[x]? = some (.rule r) →
      r.rule = k.rule → Traces net t get start (xs ++ [x]) k.follow

/-- The children of the node trace a path from the start of its rule to a stop of the rule. -/
def Derives (net : Network) (t : Tree) (get : Nat → Token) (r : RuleNode) : Prop :=
  ∃ start stop st, net.ruleStarts[r.rule]? = some start ∧ net.states[stop]? = some st ∧
    st.isRuleStop = true ∧ st.rule = some r.rule ∧ t.Traces net get start r.children stop

/-- The open nodes trace paths from the starts of their rules: the innermost to state `s`, and each
other to the state that called the next rule. -/
inductive Along (net : Network) (t : Tree) (get : Nat → Token) : Nat → List Part → Prop
  | root {p : Part} {s start : Nat} : net.ruleStarts[p.rule]? = some start →
      t.Traces net get start p.done s →
      Along net t get s [p]
  | call {p q : Part} {l : List Part} {s u start : Nat} : net.ruleStarts[p.rule]? = some start →
      t.Traces net get start p.done s → p.invoking = some u → Along net t get u (q :: l) →
      Along net t get s (p :: q :: l)

theorem Traces.kept (h : t.Traces net get start xs s)
    (hsame : ∀ x ∈ xs, t'.nodes[x]? = t.nodes[x]?) : t'.Traces net get start xs s := by
  induction h with
  | here => exact .here
  | silent _ hs hns he hsilent hcall ih => exact .silent (ih hsame) hs hns he hsilent hcall
  | token _ hs hns he hx hfits ih =>
    exact .token (ih fun y hy => hsame y (List.mem_append_left _ hy)) hs hns he
      ((hsame _ (by simp)).trans hx) hfits
  | call _ hs hns hk hx hrule ih =>
    exact .call (ih fun y hy => hsame y (List.mem_append_left _ hy)) hs hns hk
      ((hsame _ (by simp)).trans hx) hrule

theorem Traces.mem (h : t.Traces net get start xs s) {within : List Nat} (hstart : start ∈ within)
    (hclosed : ∀ s ∈ within, ∀ st ∈ net.states[s]?, st.isRuleStop = false → ∀ e ∈ st.edges,
      e.onward ∈ within) : s ∈ within := by
  induction h with
  | here => exact hstart
  | silent _ hs hns he _ hcall ih =>
    have := hclosed _ ih _ hs hns _ he
    rwa [Edge.onward_of_call?_eq_none hcall] at this
  | @token xs s x p i st e _ hs hns he _ hfits ih =>
    have hcall : e.call? = none := by
      cases e <;> first | rfl | cases hfits
    have := hclosed _ ih _ hs hns _ he
    rwa [Edge.onward_of_call?_eq_none hcall] at this
  | call _ hs hns hk _ _ ih => exact hclosed _ ih _ hs hns _ hk

theorem Along.kept (h : t.Along net get s l)
    (hsame : ∀ p ∈ l, ∀ x ∈ p.done, t'.nodes[x]? = t.nodes[x]?) : t'.Along net get s l := by
  induction h with
  | root hstart hp => exact .root hstart (hp.kept (hsame _ List.mem_cons_self))
  | call hstart hp hu _ ih =>
    exact .call hstart (hp.kept (hsame _ List.mem_cons_self)) hu
      (ih fun p hp => hsame p (List.mem_cons_of_mem _ hp))

theorem Along.head (h : t.Along net get s (p :: l)) :
    ∃ start, net.ruleStarts[p.rule]? = some start ∧
    t.Traces net get start p.done s ∧
    ∀ (done : List Nat) (s' : Nat), t.Traces net get start done s' →
      t.Along net get s' ({ p with done } :: l) := by
  cases h with
  | root hstart hp => exact ⟨_, hstart, hp, fun _ _ h' => .root hstart h'⟩
  | call hstart hp hu hrest => exact ⟨_, hstart, hp, fun _ _ h' => .call hstart h' hu hrest⟩

/-- The nodes that are done derive what is below them, and the open ones have come to state `s`. -/
structure Derived (net : Network) (t : Tree) (get : Nat → Token) (l : List Part) (s : Nat) :
    Prop where
  settled : ∀ {x : Nat} {r : RuleNode}, t.Settled l x → t.nodes[x]? = some (.rule r) →
    t.Derives net get r
  along : l ≠ [] → t.Along net get s l

section grows

variable {ts ts' : Tokens} (h : t.Derived net get l s) (hshape : t.Shaped l) (hl : l ≠ [])
  (hg : Grows net t ts l t' ts' l')

include h hshape hl hg

theorem Derived.along_kept : t'.Along net get s l :=
  (h.along hl).kept fun _ hp x hx => hg.kept x ((hshape.listed (.opened hp)).2 x hx).1

/-- A move keeps what nodes derive, if the innermost node is done at a stop of its rule only. -/
theorem Derived.grows (hstop : ∀ p k, l = p :: k → p.node ∉ openNodes l' →
      ∃ st, net.states[s]? = some st ∧ st.isRuleStop = true ∧ st.rule = some p.rule)
    (halong : l' ≠ [] → t'.Along net get u l') : t'.Derived net get l' u := by
  refine ⟨fun {x r} hx hr => ?_, halong⟩
  obtain ⟨d, hb, hnew⟩ := hg.builds
  rcases (hnew x).1 hx with hold | hd
  · rw [hg.kept x hold] at hr
    obtain ⟨start, stop, st, hstart, hst, hns, hrule, htraces⟩ := h.settled hold hr
    refine ⟨start, stop, st, hstart, hst, hns, hrule, htraces.kept fun y hy => hg.kept y ?_⟩
    exact ((hshape.listed (.settled hold.shut hr)).2 y hy).1
  · obtain ⟨p, k, rfl, rfl, hrule, hchildren⟩ := hb.done_rule hd hr
    obtain ⟨st, hst, hns, howner⟩ := hstop p k rfl hx.shut
    obtain ⟨start, hstart, htraces, -⟩ := (h.along_kept hshape hl hg).head
    rw [Derives, hrule, hchildren]
    exact ⟨start, s, st, hstart, hst, hns, howner, htraces⟩

end grows

end Tree

namespace Walker

open GrammarWalk.Tree (openNodes Grows)

variable {w w' : Walker} {p q : Part} {s s' : List Part} {st : State}

theorem chooseEdge_lt {number : Nat} (hst : w.net.states[w.state]? = some st)
    (hedges : st.edges ≠ []) (h : w.chooseEdge st = .ok (.ok number)) :
    number - 1 < st.edges.length := by
  have hpos : 0 < st.edges.length := List.length_pos_iff.2 hedges
  unfold chooseEdge at h
  split at h
  · rw [bind_eq_ok] at h
    obtain ⟨follow, -, h⟩ := h
    have hmem := Choice.answer_of_choose h hst
    have := hmem.2
    omega
  · obtain rfl := Except.ok.inj (pure_eq_ok.1 h)
    exact hpos

theorem failures_of_fail {c : Nat} {r : RuleNode} {f : Failure} (hin : w.In c r)
    (h : w.fail f = .ok w') : w'.failures ≠ [] := by
  have skipped {v v' : Walker} (hskip : v.skipToken = .ok v') : v'.failures = v.failures := by
    unfold skipToken at hskip
    split at hskip
    all_goals
      simp only [bind_eq_ok, pure_eq_ok] at hskip
      obtain ⟨_, -, hskip⟩ := hskip
    · obtain ⟨_, -, rfl⟩ := hskip
      rfl
    · exact hskip ▸ rfl
  refine fail_induction (P := fun v => v.failures ≠ []) hin h (fun _ _ _ _ _ _ _ => ?_)
    (fun _ _ _ hv => hv)
    fun v v' hv hskip => (skipped hskip).symm ▸ hv
  exact List.append_ne_nil_of_right_ne_nil _ (List.cons_ne_nil _ _)

def Derived (w : Walker) (s : List Part) : Prop := w.tree.Derived w.net w.tokens.get s w.state

/-- The parse is inside the rules of the open parts, and if nothing has failed, then its nodes
derive. -/
structure Deriving (w : Walker) (p : Part) (s : List Part) : Prop where
  placed : w.Stacks p s
  grown : w.Grown (p :: s)
  derived : w.failures = [] → w.Derived (p :: s)

namespace Deriving

theorem grows (h : w.Deriving p s) (hstacks : w'.Stacks q s')
    (hg : Grows w.net w.tree w.tokens (p :: s) w'.tree w'.tokens (q :: s')) (hnet : w'.net = w.net)
    (hget : w'.tokens.get = w.tokens.get) (hfailures : w'.failures = w.failures)
    (hstop : p.node ∉ openNodes (q :: s') → ∃ st, w.net.states[w.state]? = some st ∧
      st.isRuleStop = true ∧ st.rule = some p.rule)
    (halong : w'.tree.Along w.net w.tokens.get w.state (p :: s) →
      w'.tree.Along w.net w.tokens.get w'.state (q :: s')) : w'.Deriving q s' := by
  refine ⟨hstacks, h.grown.grows (List.cons_ne_nil _ _) hg, fun hf => ?_⟩
  have hd := h.derived (hfailures ▸ hf)
  rw [Derived, hnet, hget]
  refine Tree.Derived.grows hd h.grown.shaped (List.cons_ne_nil _ _) hg
    (fun p' k hk => ?_) fun _ => ?_
  · obtain ⟨rfl, rfl⟩ := List.cons.inj hk
    exact hstop
  · exact halong (Tree.Derived.along_kept hd h.grown.shaped (List.cons_ne_nil _ _) hg)

variable (h : w.Deriving p s) (hst : w.net.states[w.state]? = some st)

include h

theorem fail {f : Failure} (hw : w.net.Wired) (hvisit : w.visit = .ok (.error f))
    (hfail : w.fail f = .ok w') : ∃ p' s', w'.Deriving p' s' := by
  obtain ⟨r, hin⟩ := h.placed.aligned.stands
  obtain ⟨p', s', hplaced, hgrown⟩ := h.grown.fail hw h.placed hvisit hfail
  exact ⟨p', s', hplaced, hgrown, fun hf => absurd hf (failures_of_fail hin.toIn hfail)⟩

include hst

theorem visit (hw : w.net.Wired) (hseal : w.net.Sealed) (hmarks : w.net.MarksPrecedence)
    (hplain : ∀ r, w.net.isPrecedenceRule r = false) (hns : st.isRuleStop = false)
    (hedges : st.edges ≠ []) (hvisit : w.visit = .ok (.ok w')) : ∃ p' s', w'.Deriving p' s' := by
  obtain ⟨c', l', ha, -⟩ := h.placed.aligned.visit hw hseal.enclosed hmarks hst hns hvisit
  obtain ⟨r, hin⟩ := h.placed.aligned.stands
  obtain ⟨st', number, hst', hchoose, hcases⟩ :=
    visit_cases hin.toIn (fun p hp => (hin.below p hp).1) hvisit
  obtain rfl := Option.some.inj (hst.symm.trans hst')
  obtain ⟨e, v, he, htook, rfl⟩ | ⟨hnone, -⟩ := hcases
  rotate_left
  · exact absurd (List.getElem?_eq_none_iff.1 hnone)
      (Nat.not_le.2 (chooseEdge_lt hst hedges hchoose))
  have he := List.mem_of_getElem? he
  have hnodup := h.placed.nodup
  have hopen {q : Part} {l : List Part} (hmem : p.node ∈ openNodes (q :: l)) :
      p.node ∉ openNodes (q :: l) →
      ∃ st, w.net.states[w.state]? = some st ∧ st.isRuleStop = true ∧ st.rule = some p.rule :=
    fun hnot => absurd hmem hnot
  cases htook with
  | silent hsilent hcall =>
    refine ⟨p, s, h.grows (ha.stacks h.placed.parts h.placed.context)
      (.refl h.placed.parts) rfl rfl rfl (hopen List.mem_cons_self) fun halong => ?_⟩
    obtain ⟨start, -, htraces, hgo⟩ := halong.head
    exact hgo _ _ (htraces.silent hst hns he hsilent hcall)
  | wrap hk =>
    have howner := hmarks _ _ _ _ hst hk
    simp [Option.any, hplain] at howner
    split at howner <;> cases howner
  | token hfits hreads =>
    obtain ⟨tree, hatt, rfl⟩ := hreads
    have hg := Tree.grows_token h.placed.parts hnodup hin.node hatt (.inl rfl)
    refine ⟨_, s, h.grows (ha.stacks hg.parts h.placed.context) hg rfl Tokens.get_advance rfl
      (hopen List.mem_cons_self) fun halong => ?_⟩
    obtain ⟨start, -, htraces, hgo⟩ := halong.head
    exact hgo _ _ (htraces.token hst hns he hatt.node hfits)
  | @call k tree hp hatt =>
    have hg : Grows w.net w.tree w.tokens (p :: s) tree w.tokens
        ({ node := w.tree.size, rule := k.rule, invoking := some w.state, done := [] } :: p :: s) :=
      Tree.grows_enter h.placed.parts hnodup hin.node hatt.root hatt.node
        (by rw [hatt.parent, RuleNode.addChild, Context.pending, if_neg (by simp [hp])]) hatt.other
    refine ⟨_, p :: s, h.grows (ha.stacks hg.parts rfl) hg rfl rfl rfl
      (hopen (List.mem_cons_of_mem _ List.mem_cons_self)) fun halong => ?_⟩
    exact .call (hseal.call hst he).2 .here rfl halong
  | recurse hp => simp [hplain] at hp

theorem leave (hseal : w.net.Sealed) (hns : st.isRuleStop = true) (hroot : w.atRoot = .ok false)
    (hleave : w.visitStop = .ok w') : ∃ p' s', w'.Deriving p' s' := by
  obtain ⟨q, s', rfl, hstacks, hg⟩ := h.placed.leave hseal hst hroot hleave
  obtain ⟨r, v, d, l', u, cst, k, hl, hcall, -, hin, hcloses, rfl⟩ :=
    h.placed.aligned.returns hseal hst hroot hleave
  have hnodup := h.placed.nodup
  have howner : st.rule = some p.rule := (Network.ownerOf_eq hst).symm.trans h.placed.aligned.state
  refine ⟨_, s', h.grows hstacks hg ?_ ?_ ?_ (fun _ => ⟨st, hst, hns, howner⟩) fun halong => ?_⟩
  · rw [hcloses.rest]
  · rw [hcloses.rest]
  · rw [hcloses.rest]
  · obtain ⟨r', hr', hrule⟩ := hcloses.tree.node
    cases halong with
    | call _ _ hu hrest =>
      obtain rfl := Option.some.inj (hcall.invoking.symm.trans hu)
      obtain ⟨start, -, htraces, hgo⟩ := hrest.head
      exact hgo _ _ (htraces.call hcall.state hcall.going hcall.edge hr'
        ((hrule.trans hin.rule).trans hcall.rule.symm))

theorem finish (hns : st.isRuleStop = true) (hroot : w.atRoot = .ok true)
    (hfinish : w.finishRoot = .ok w') : w'.failures = [] → w'.Derived [] := by
  obtain ⟨rfl, hg⟩ := h.placed.finish hroot hfinish
  obtain ⟨-, r, v, hin, -, hcloses, rfl⟩ := h.placed.aligned.finish_closes hroot hfinish
  have howner : st.rule = some p.rule := (Network.ownerOf_eq hst).symm.trans h.placed.aligned.state
  have hrest : v.failures = w.failures ∧ v.net = w.net ∧ v.tokens = w.tokens := by
    rw [hcloses.rest]
    exact ⟨rfl, rfl, rfl⟩
  intro hf
  have hd := h.derived (hrest.1 ▸ hf)
  show v.tree.Derived v.net v.tokens.get [] v.state
  rw [hrest.2.1, hrest.2.2]
  refine Tree.Derived.grows hd h.grown.shaped (List.cons_ne_nil _ _) hg
    (fun p' k hk _ => ?_) (absurd rfl)
  obtain ⟨rfl, rfl⟩ := List.cons.inj hk
  exact ⟨st, hst, hns, howner⟩

end Deriving

end Walker

end GrammarWalk
