import GrammarWalk.Proofs.Parse.Contexts

/-! The open nodes of a parse with the children that are done. A node is done when it is no longer
open, and stays as it is from then on; so a move of a parse is known by the one node that is done
with it. -/

namespace GrammarWalk

/-- An open node, with those of its children that are done. -/
structure Part extends Context where
  done : List Nat
deriving DecidableEq, Repr, Inhabited

/-- What an open node is to the next one: a node of an ordinary rule is listed from the start, one
of a precedence rule is not. -/
def Context.pending (net : Network) (c : Context) : List Nat :=
  if net.isPrecedenceRule c.rule then [] else [c.node]

namespace Tree

variable {net : Network} {t t' : Tree} {p q : Part} {s s' : List Part} {x : Nat} {n : Node}
  {r : RuleNode}
  {ts ts' : Tokens}

def Has (t : Tree) (x : Nat) : Prop := ∃ n, t.nodes[x]? = some n

def openNodes (s : List Part) : List Nat := s.map (·.node)

/-- The open nodes from a node up, which lists `rest` behind its children that are done. -/
inductive Parts (net : Network) (t : Tree) : List Nat → List Part → Prop
  | nil {rest : List Nat} : Parts net t rest []
  | cons {rest : List Nat} {p : Part} {s : List Part} {r : RuleNode} :
      t.nodes[p.node]? = some (.rule r) →
      r.rule = p.rule → r.invoking = p.invoking → r.parent = (openNodes s).head? →
      r.children = p.done ++ rest →
      Parts net t (p.pending net) s → Parts net t rest (p :: s)

/-- The node is there and not open. -/
structure Settled (t : Tree) (s : List Part) (x : Nat) : Prop where
  there : t.Has x
  shut : x ∉ openNodes s

namespace Parts

variable {rest : List Nat}

theorem opened (h : t.Parts net rest s) : t.Open (openNodes s).head? (s.map (·.toContext)) := by
  induction h with
  | nil => exact .nil
  | cons hr hrule hinvoking hparent _ _ ih =>
    have hopen := Open.cons hr (hparent ▸ ih)
    rw [hrule, hinvoking] at hopen
    exact hopen

theorem congr (h : t.Parts net rest s) (hsame : ∀ x ∈ openNodes s, t'.nodes[x]? = t.nodes[x]?) :
    t'.Parts net rest s := by
  induction h with
  | nil => exact .nil
  | cons hr hrule hinvoking hparent hchildren _ ih =>
    exact .cons ((hsame _ List.mem_cons_self).trans hr) hrule hinvoking hparent hchildren
      (ih fun x hx => hsame x (List.mem_cons_of_mem _ hx))

theorem head (h : t.Parts net rest (p :: s)) :
    ∃ r, t.nodes[p.node]? = some (.rule r) ∧ r.rule = p.rule ∧
    r.invoking = p.invoking ∧ r.parent = (openNodes s).head? ∧ r.children = p.done ++ rest ∧
    t.Parts net (p.pending net) s := by
  cases h with
  | cons hr hrule hinvoking hparent hchildren hrest =>
    exact ⟨_, hr, hrule, hinvoking, hparent, hchildren, hrest⟩

theorem there (h : t.Parts net rest s) (hx : x ∈ openNodes s) :
    ∃ r, t.nodes[x]? = some (.rule r) := by
  induction h with
  | nil => cases hx
  | cons hr _ _ _ _ _ ih =>
    rcases List.mem_cons.1 hx with rfl | hx
    · exact ⟨_, hr⟩
    · exact ih hx

end Parts

/-- What a move makes of a tree whose open parts are `s`: the parts are `s'` afterwards, and one
more node is done, if any. -/
inductive Builds (t : Tree) (ts : Tokens) (t' : Tree) :
    List Part → Tokens → List Part → Option Nat → Prop
  | note {s : List Part} : Builds t ts t' s ts s none
  | token {p : Part} {s : List Part} {n : Node} : t'.nodes[t.size]? = some n →
      n = .leaf p.node ts.position ∨ n = .error p.node ts.position →
      Builds t ts t' (p :: s) ts.advance ({ p with done := p.done ++ [t.size] } :: s) (some t.size)
  | enter {p : Part} {s : List Part} {rule : Nat} {invoking : Option Nat} :
      Builds t ts t' (p :: s) ts ({ node := t.size, rule, invoking, done := [] } :: p :: s) none
  | wrap {p : Part} {s : List Part} {r : RuleNode} : t'.nodes[p.node]? = some (.rule r) →
      r.rule = p.rule →
      r.parent = some t.size → r.children = p.done →
      Builds t ts t' (p :: s) ts ({ p with node := t.size, done := [p.node] } :: s) (some p.node)
  | leave {p q : Part} {s : List Part} {r : RuleNode} : t'.nodes[p.node]? = some (.rule r) →
      r.rule = p.rule →
      r.parent = some q.node → r.children = p.done →
      Builds t ts t' (p :: q :: s) ts ({ q with done := q.done ++ [p.node] } :: s) (some p.node)
  | finish {p : Part} {r : RuleNode} : t'.nodes[p.node]? = some (.rule r) → r.rule = p.rule →
      r.parent = none → r.children = p.done → t'.root = t.root →
      Builds t ts t' [p] ts [] (some p.node)

def Roots (t : Tree) (s : List Part) : Prop := s ≠ [] → t.root = (openNodes s).getLast?

/-- A move builds on the tree, keeps all nodes that are done and makes the open parts `s'`. -/
structure Grows (net : Network) (t : Tree) (ts : Tokens) (s : List Part) (t' : Tree) (ts' : Tokens)
    (s' : List Part) : Prop where
  builds : ∃ d, Builds t ts t' s ts' s' d ∧ ∀ x, t'.Settled s' x ↔ t.Settled s x ∨ d = some x
  kept : ∀ x, t.Settled s x → t'.nodes[x]? = t.nodes[x]?
  parts : t'.Parts net [] s'
  roots : t.Roots s → t'.Roots s'

section has

theorem not_has_size : ¬ t.Has t.size := fun ⟨_, hn⟩ => ne_size hn rfl

theorem settled_iff : t.Settled s x ↔ t.Has x ∧ x ∉ openNodes s :=
  ⟨fun h => ⟨h.there, h.shut⟩, fun h => ⟨h.1, h.2⟩⟩

theorem Sets.has (h : t.Sets t' x n) {y : Nat} : t'.Has y ↔ t.Has y ∨ y = x := by
  unfold Has
  by_cases hy : y = x
  · subst hy
    simp [h.node]
  · simp [h.other y hy, hy]

theorem Attaches.has {y : Nat} (hp : t.nodes[x]? = some (.rule r)) (h : t.Attaches t' x r n) :
    t'.Has y ↔ t.Has y ∨ y = t.size := by
  unfold Has
  by_cases hy : y = t.size
  · subst hy
    simp [h.node]
  · by_cases hx : y = x
    · subst hx
      simp [h.parent, hp]
    · simp [h.other y hy hx, hy]

theorem Wraps.has {parent invoking : Option Nat} {start y : Nat} (hc : t.nodes[x]? = some (.rule r))
    (h : t.Wraps t' x r parent invoking start) : t'.Has y ↔ t.Has y ∨ y = t.size := by
  unfold Has
  by_cases hy : y = t.size
  · subst hy
    simp [h.node]
  by_cases hx : y = x
  · obtain ⟨stop, hstop⟩ := h.wrapped
    subst hx
    simp [hstop, hc]
  by_cases hp : r.parent = some y
  · simp [h.unlisted y hp, hy]
  · simp [h.other y hy hx hp, hy]

theorem Closes.has {precedence : Bool} {y : Nat} (hc : t.nodes[x]? = some (.rule r))
    (h : t.Closes t' x r precedence) : t'.Has y ↔ t.Has y := by
  cases h with
  | noted _ hset _ =>
    rw [hset.has, or_iff_left_iff_imp]
    rintro rfl
    exact ⟨_, hc⟩
  | @listed p q _ hq hlist =>
    unfold Has
    by_cases hx : y = x
    · obtain ⟨stop, hstop⟩ := hlist.node
      subst hx
      simp [hstop, hc]
    by_cases hp : y = p
    · subst hp
      simp [hlist.parent, hq]
    · simp [hlist.other y hx hp]

theorem Closes.node {precedence : Bool} (h : t.Closes t' x r precedence) :
    ∃ r', t'.nodes[x]? = some (.rule r') ∧ r'.rule = r.rule := by
  cases h with
  | noted _ hset _ => exact ⟨_, hset.node, rfl⟩
  | listed _ _ hlist =>
    obtain ⟨stop, hstop⟩ := hlist.node
    exact ⟨_, hstop, rfl⟩

end has

section moves

variable (h : t.Parts net [] (p :: s)) (hnodup : (openNodes (p :: s)).Nodup)
  (hr : t.nodes[p.node]? = some (.rule r))

include h hr

theorem head_eq :
    r.rule = p.rule ∧ r.invoking = p.invoking ∧ r.parent = (openNodes s).head? ∧
      r.children = p.done ∧
    t.Parts net (p.pending net) s := by
  obtain ⟨r', hr', hrule, hinvoking, hparent, hchildren, hrest⟩ := h.head
  obtain rfl := Node.rule.inj (Option.some.inj (hr.symm.trans hr'))
  exact ⟨hrule, hinvoking, hparent, hchildren.trans (List.append_nil _), hrest⟩

include hnodup

theorem grows_note {r' : RuleNode} (hset : t.Sets t' p.node (.rule r')) (hroot : t'.root = t.root)
    (hsame : r'.rule = r.rule ∧ r'.invoking = r.invoking ∧ r'.parent = r.parent ∧
      r'.children = r.children) : Grows net t ts (p :: s) t' ts (p :: s) := by
  obtain ⟨hrule, hinvoking, hparent, hchildren, hrest⟩ := head_eq h hr
  obtain ⟨hrule', hinvoking', hparent', hchildren'⟩ := hsame
  have hout : p.node ∉ openNodes s := (List.nodup_cons.1 hnodup).1
  refine ⟨⟨none, .note, fun x => ?_⟩, fun x hx => ?_, ?_,
    fun hroots hne => hroot.trans (hroots hne)⟩
  · rw [settled_iff, settled_iff, hset.has]
    have : t.Has p.node := ⟨_, hr⟩
    grind
  · exact hset.other x fun hxp => hx.shut (hxp ▸ List.mem_cons_self)
  · refine .cons hset.node (hrule'.trans hrule) (hinvoking'.trans hinvoking)
      (hparent'.trans hparent) ?_
      (hrest.congr fun x hx => hset.other x fun hxp => hout (hxp ▸ hx))
    rw [hchildren', hchildren, List.append_nil]

theorem grows_token (hatt : t.Attaches t' p.node r n)
    (hn : n = .leaf p.node ts.position ∨ n = .error p.node ts.position) :
    Grows net t ts (p :: s) t' ts.advance ({ p with done := p.done ++ [t.size] } :: s) := by
  obtain ⟨hrule, hinvoking, hparent, hchildren, hrest⟩ := head_eq h hr
  have hout : p.node ∉ openNodes s := (List.nodup_cons.1 hnodup).1
  have hnew : ∀ x ∈ openNodes (p :: s), x ≠ t.size := fun x hx => ne_size (h.there hx).choose_spec
  refine ⟨⟨some t.size, .token hatt.node hn, fun x => ?_⟩, fun x hx => ?_, ?_,
    fun hroots hne => hatt.root.trans (hroots (List.cons_ne_nil _ _))⟩
  · rw [settled_iff, settled_iff, hatt.has hr]
    show _ ∧ x ∉ openNodes (p :: s) ↔ _
    grind
  · exact hatt.other x (ne_size hx.there.choose_spec) fun hxp => hx.shut (hxp ▸ List.mem_cons_self)
  · refine .cons hatt.parent hrule hinvoking hparent ?_ (hrest.congr fun x hx =>
      hatt.other x (hnew x (List.mem_cons_of_mem _ hx)) fun hxp => hout (hxp ▸ hx))
    simp [RuleNode.addChild, hchildren]

theorem grows_enter {k i start : Nat} (hroot : t'.root = t.root)
    (hnew : t'.nodes[t.size]? =
      some (.rule { rule := k, parent := some p.node, invoking := some i, start }))
    (hold : t'.nodes[p.node]? =
      some (.rule { r with children := r.children ++ Context.pending net ⟨t.size, k, some i⟩ }))
    (hother : ∀ y, y ≠ t.size → y ≠ p.node → t'.nodes[y]? = t.nodes[y]?) :
    Grows net t ts (p :: s) t' ts
      ({ node := t.size, rule := k, invoking := some i, done := [] } :: p :: s) := by
  obtain ⟨hrule, hinvoking, hparent, hchildren, hrest⟩ := head_eq h hr
  have hout : p.node ∉ openNodes s := (List.nodup_cons.1 hnodup).1
  have hsize : ∀ x ∈ openNodes (p :: s), x ≠ t.size := fun x hx => ne_size (h.there hx).choose_spec
  have hhas (x : Nat) : t'.Has x ↔ t.Has x ∨ x = t.size := by
    unfold Has
    by_cases hx : x = t.size
    · simp [hx, hnew]
    by_cases hxp : x = p.node
    · simp [hxp, hold, hr]
    · simp [hother x hx hxp, hx]
  refine ⟨⟨none, .enter, fun x => ?_⟩, fun x hx => ?_, ?_, fun hroots hne => ?_⟩
  · rw [settled_iff, settled_iff, hhas]
    have := @not_has_size t
    simp only [openNodes, List.map_cons, List.mem_cons] at hsize ⊢
    grind
  · exact hother x (ne_size hx.there.choose_spec) fun hxp => hx.shut (hxp ▸ List.mem_cons_self)
  · refine .cons hnew rfl rfl rfl rfl (.cons hold hrule hinvoking hparent ?_ (hrest.congr
      fun x hx => hother x (hsize x (List.mem_cons_of_mem _ hx)) fun hxp => hout (hxp ▸ hx)))
    rw [hchildren]
  · rw [hroot, hroots (List.cons_ne_nil _ _)]
    rfl

theorem grows_wrap {start : Nat} (hprec : net.isPrecedenceRule p.rule = true)
    (hdone : ∀ q ∈ s, p.node ∉ q.done) (hw : t.Wraps t' p.node r r.parent r.invoking start) :
    Grows net t ts (p :: s) t' ts ({ p with node := t.size, done := [p.node] } :: s) := by
  obtain ⟨hrule, hinvoking, hparent, hchildren, hrest⟩ := head_eq h hr
  have hout : p.node ∉ openNodes s := (List.nodup_cons.1 hnodup).1
  have hsize : ∀ x ∈ openNodes (p :: s), x ≠ t.size := fun x hx => ne_size (h.there hx).choose_spec
  have hpending (node : Nat) : Context.pending net ⟨node, p.rule, p.invoking⟩ = [] := if_pos hprec
  obtain ⟨stop, hwrapped⟩ := hw.wrapped
  refine ⟨⟨some p.node, .wrap hwrapped hrule rfl hchildren, fun x => ?_⟩, fun x hx => ?_, ?_,
    fun hroots hne => ?_⟩
  · rw [settled_iff, settled_iff, hw.has hr]
    have := @not_has_size t
    have : t.Has p.node := ⟨_, hr⟩
    simp only [openNodes, List.map_cons, List.mem_cons] at hsize hout ⊢
    grind
  · have hxo : x ∉ openNodes (p :: s) := hx.shut
    refine hw.other x (ne_size hx.there.choose_spec) (fun hxp => hxo (hxp ▸ List.mem_cons_self))
      fun hpar => ?_
    rw [hparent] at hpar
    exact hxo (List.mem_cons_of_mem _ (List.mem_of_mem_head? hpar))
  · refine .cons hw.node hrule hinvoking hparent rfl ?_
    rw [hpending]
    have hrest : t.Parts net [] s := hpending p.node ▸ hrest
    -- the next open node does not list the node that is wrapped, so nothing is dropped
    have hkept : ∀ x ∈ openNodes s, t'.nodes[x]? = t.nodes[x]? := fun x hx => by
      have hxn := hsize x (List.mem_cons_of_mem _ hx)
      have hxp : x ≠ p.node := fun hxp => hout (hxp ▸ hx)
      by_cases hpar : r.parent = some x
      · rw [hw.unlisted x hpar]
        rw [hparent] at hpar
        cases s with
        | nil => cases hpar
        | cons q s =>
          obtain rfl := Option.some.inj hpar
          obtain ⟨rq, hq, -, -, -, hqchildren, -⟩ := hrest.head
          rw [hq, Option.map_some, Node.mapRule, RuleNode.dropChild, List.filter_eq_self.2]
          intro y hy
          rw [hqchildren, List.append_nil] at hy
          have := hdone q List.mem_cons_self
          grind
      · exact hw.other x hxn hxp hpar
    exact hrest.congr hkept
  · rw [hw.root, hparent]
    cases s with
    | nil => simp [openNodes]
    | cons q s =>
      have := hroots (List.cons_ne_nil _ _)
      rw [this]
      have hlast : (openNodes (p :: q :: s)).getLast? = (openNodes (q :: s)).getLast? := rfl
      rw [hlast, if_neg]
      · rfl
      rintro (hc | hc)
      · cases hc
      · exact hout (List.mem_of_getLast? hc)

end moves

theorem grows_leave (h : t.Parts net [] (p :: q :: s)) (hnodup : (openNodes (p :: q :: s)).Nodup)
    (hr : t.nodes[p.node]? = some (.rule r))
    (hc : t.Closes t' p.node r (net.isPrecedenceRule p.rule)) :
    Grows net t ts (p :: q :: s) t' ts ({ q with done := q.done ++ [p.node] } :: s) := by
  obtain ⟨hrule, hinvoking, hparent, hchildren, hrest⟩ := head_eq h hr
  obtain ⟨rq, hq, hqrule, hqinvoking, hqparent, hqchildren, hqrest⟩ := hrest.head
  have hparent : r.parent = some q.node := hparent
  obtain ⟨hpout, hnodup⟩ := List.nodup_cons.1 hnodup
  have hpout : p.node ∉ openNodes (q :: s) := hpout
  have hpq : q.node ≠ p.node := fun hqp => hpout (hqp ▸ List.mem_cons_self)
  have hqout : q.node ∉ openNodes s := (List.nodup_cons.1 hnodup).1
  obtain ⟨⟨stop, hdone⟩, hlist, hother, hroot⟩ :
      (∃ stop, t'.nodes[p.node]? = some (.rule { r with stop })) ∧
      t'.nodes[q.node]? = some (.rule { rq with children := q.done ++ [p.node] }) ∧
      (∀ x, x ≠ p.node → x ≠ q.node → t'.nodes[x]? = t.nodes[x]?) ∧ t'.root = t.root := by
    generalize hprec : net.isPrecedenceRule p.rule = precedence at hc
    cases hc with
    | @noted _ stop hcond hset hroot =>
      have hprec : net.isPrecedenceRule p.rule = false := by simpa [hprec, hparent] using hcond
      refine ⟨⟨stop, hset.node⟩, (hset.other _ hpq).trans ?_, fun x hx _ => hset.other x hx, hroot⟩
      have hlisted : rq.children = q.done ++ [p.node] := by
        rw [hqchildren, Context.pending, hprec]
        rfl
      rw [hq, ← hlisted]
    | @listed p' q' hp' hq' hlist =>
      obtain rfl : q.node = p' := Option.some.inj (hparent.symm.trans hp')
      obtain rfl := Node.rule.inj (Option.some.inj (hq.symm.trans hq'))
      obtain ⟨stop, hstop⟩ := hlist.node
      rw [← hp'] at hstop
      refine ⟨⟨stop, hstop⟩, ?_, hlist.other, hlist.root⟩
      rw [hlist.parent, RuleNode.addChild, hqchildren, Context.pending, if_pos hprec,
        List.append_nil]
  refine ⟨⟨some p.node, .leave hdone hrule hparent hchildren, fun x => ?_⟩, fun x hx => ?_, ?_,
    fun hroots hne => ?_⟩
  · rw [settled_iff, settled_iff, hc.has hr]
    have : t.Has p.node := ⟨_, hr⟩
    simp only [openNodes, List.map_cons, List.mem_cons] at hpout ⊢
    grind
  · have hxo : x ∉ openNodes (p :: q :: s) := hx.shut
    simp only [openNodes, List.map_cons, List.mem_cons, not_or] at hxo
    exact hother x hxo.1 hxo.2.1
  · refine .cons hlist hqrule hqinvoking hqparent (List.append_nil _).symm
      (hqrest.congr fun x hx => ?_)
    exact hother x (fun hxp => hpout (hxp ▸ List.mem_cons_of_mem _ hx)) fun hxq => hqout (hxq ▸ hx)
  · rw [hroot, hroots (List.cons_ne_nil _ _)]
    rfl

theorem grows_finish (h : t.Parts net [] [p]) (hr : t.nodes[p.node]? = some (.rule r))
    (hc : t.Closes t' p.node r (net.isPrecedenceRule p.rule)) : Grows net t ts [p] t' ts [] := by
  obtain ⟨hrule, hinvoking, hparent, hchildren, hrest⟩ := head_eq h hr
  have hparent : r.parent = none := hparent
  obtain ⟨⟨stop, hdone⟩, hother, hroot⟩ :
      (∃ stop, t'.nodes[p.node]? = some (.rule { r with stop })) ∧
      (∀ x, x ≠ p.node → t'.nodes[x]? = t.nodes[x]?) ∧ t'.root = t.root := by
    generalize net.isPrecedenceRule p.rule = precedence at hc
    cases hc with
    | noted _ hset hroot => exact ⟨⟨_, hset.node⟩, hset.other, hroot⟩
    | listed hp' => exact nomatch hparent.symm.trans hp'
  refine ⟨⟨some p.node, .finish hdone hrule hparent hchildren hroot, fun x => ?_⟩, fun x hx => ?_,
    .nil, fun _ hne => absurd rfl hne⟩
  · rw [settled_iff, settled_iff, hc.has hr]
    have : t.Has p.node := ⟨_, hr⟩
    simp only [openNodes, List.map_cons, List.map_nil, List.mem_cons, List.not_mem_nil, or_false]
    grind
  · exact hother x fun hxp => hx.shut (hxp ▸ List.mem_cons_self)

theorem Grows.refl (h : t.Parts net [] s) : Grows net t ts s t ts s :=
  ⟨⟨none, .note, fun x => by simp⟩, fun _ _ => rfl, h, id⟩

end Tree

namespace Walker

open GrammarWalk.Tree (openNodes Grows)

variable {w w' v : Walker} {p : Part} {s : List Part} {r : RuleNode} {st : State} {e : Edge}

/-- The parse is inside the rules of the open parts, and its state belongs to the innermost. -/
structure Stacks (w : Walker) (p : Part) (s : List Part) : Prop where
  aligned : w.Aligned p.toContext (s.map (·.toContext))
  parts : w.tree.Parts w.net [] (p :: s)

theorem Aligned.stacks {c : Context} {l : List Context} (h : w.Aligned c l)
    (hparts : w.tree.Parts w.net [] (p :: s)) (hctx : w.context = some p.node) : w.Stacks p s := by
  have hopen := h.tree
  rw [hctx] at hopen
  obtain ⟨rfl, rfl⟩ := List.cons.inj (hopen.unique hparts.opened)
  exact ⟨h, hparts⟩

namespace Stacks

theorem nodup (h : w.Stacks p s) : (openNodes (p :: s)).Nodup := by
  have horder : ((openNodes (p :: s)).Pairwise (· > ·)) := by
    have := h.aligned.order
    rwa [List.map_cons, List.map_map] at this
  exact horder.imp Nat.ne_of_gt

theorem context (h : w.Stacks p s) : w.context = some p.node := h.aligned.tree.context_eq

theorem took (h : w.Stacks p s) (hr : w.tree.nodes[p.node]? = some (.rule r))
    (hdone : ∀ q ∈ s, p.node ∉ q.done)
    (hmark : ∀ d loopback, st.kind = .starLoopEntry d loopback true →
      w.net.isPrecedenceRule p.rule = true) (htook : w.Took st p.node r e v) :
    ∃ p' s', Grows w.net w.tree w.tokens (p :: s) v.tree v.tokens (p' :: s') ∧
      v.context = some p'.node ∧ v.net = w.net := by
  have hnodup := h.nodup
  obtain ⟨hrule, hinvoking, hparent, -, -⟩ := Tree.head_eq h.parts hr
  cases htook with
  | silent => exact ⟨p, s, .refl h.parts, h.context, rfl⟩
  | wrap hk hstart hwraps =>
    have hprec := hmark _ _ hk
    have houter : w.outer = { context := r.parent, invoking := r.invoking } := by
      rw [h.aligned.outer hprec, hinvoking, hparent]
      cases s <;> rfl
    rw [houter] at hwraps
    exact ⟨_, s, Tree.grows_wrap h.parts hnodup hr hprec hdone hwraps, rfl, rfl⟩
  | token hfits hreads =>
    obtain ⟨tree, hatt, rfl⟩ := hreads
    exact ⟨_, s, Tree.grows_token h.parts hnodup hr hatt (.inl rfl), h.context, rfl⟩
  | @call k tree hp hatt =>
    refine ⟨_, p :: s, Tree.grows_enter h.parts hnodup hr hatt.root hatt.node ?_ hatt.other, rfl,
      rfl⟩
    rw [hatt.parent, RuleNode.addChild, Context.pending, if_neg (by simpa using hp)]
  | @recurse k tree hp hset hroot =>
    refine ⟨_, p :: s, Tree.grows_enter h.parts hnodup hr hroot hset.node ?_ fun y hy _ =>
      hset.other y hy, rfl, rfl⟩
    rw [hset.other _ (Tree.ne_size hr), hr, Context.pending, if_pos hp, List.append_nil]

theorem visit (h : w.Stacks p s) (hw : w.net.Wired) (hseal : w.net.Sealed)
    (hmarks : w.net.MarksPrecedence) (hdone : ∀ q ∈ s, p.node ∉ q.done)
    (hst : w.net.states[w.state]? = some st) (hns : st.isRuleStop = false)
    (hvisit : w.visit = .ok (.ok w')) :
    ∃ p' s', w'.Stacks p' s' ∧ Grows w.net w.tree w.tokens (p :: s) w'.tree w'.tokens
      (p' :: s') := by
  obtain ⟨c', l', ha, -⟩ := h.aligned.visit hw hseal.enclosed hmarks hst hns hvisit
  obtain ⟨r, hin⟩ := h.aligned.stands
  obtain ⟨st', number, hst', -, hcases⟩ :=
    visit_cases hin.toIn (fun p hp => (hin.below p hp).1) hvisit
  obtain rfl := Option.some.inj (hst.symm.trans hst')
  obtain ⟨e, v, -, htook, rfl⟩ | ⟨-, ⟨-, rfl⟩ | ⟨_, stop, -, -, rfl⟩⟩ := hcases
  · have hmark (d : Decision) (loopback : Option Nat)
      (hk : st.kind = .starLoopEntry d loopback true) :
        w.net.isPrecedenceRule p.rule = true := by
      have howner := (Network.ownerOf_eq hst).symm.trans h.aligned.state
      simpa [howner] using hmarks _ _ _ _ hst hk
    obtain ⟨p', s', hgrows, hctx, hnet⟩ := h.took hin.node hdone hmark htook
    have hparts := hgrows.parts
    rw [← hnet] at hparts
    exact ⟨p', s', ha.stacks hparts hctx, hgrows⟩
  · exact ⟨p, s, h, .refl h.parts⟩
  · exact ⟨p, s, ha.stacks h.parts h.context, .refl h.parts⟩

theorem skipToken (h : w.Stacks p s) (hskip : w.skipToken = .ok w') :
    ∃ p', w'.Stacks p' s ∧ Grows w.net w.tree w.tokens (p :: s) w'.tree w'.tokens (p' :: s) := by
  have ha := (h.aligned.skipToken hskip).1
  obtain ⟨r, hin⟩ := h.aligned.stands
  obtain ⟨tree, hatt, rfl⟩ := skipToken_reads hin.toIn hskip
  have hgrows := Tree.grows_token h.parts h.nodup hin.node hatt (.inr rfl)
  exact ⟨_, ha.stacks hgrows.parts h.context, hgrows⟩

theorem leave (h : w.Stacks p s) (hseal : w.net.Sealed) (hst : w.net.states[w.state]? = some st)
    (hroot : w.atRoot = .ok false) (hleave : w.visitStop = .ok w') :
    ∃ q s', s = q :: s' ∧
      w'.Stacks { q with done := q.done ++ [p.node] } s' ∧
      Grows w.net w.tree w.tokens (p :: s) w'.tree w'.tokens
      ({ q with done := q.done ++ [p.node] } :: s') := by
  obtain ⟨d, l', hl, ha, -⟩ := h.aligned.visitStop hseal.enclosed hst hroot hleave
  obtain ⟨r, v, caller, hin, hcloses, -, rfl⟩ := h.aligned.leave_closes hst hleave
  obtain ⟨hrule, hinvoking, hparent, -, -⟩ := Tree.head_eq h.parts hin.node
  cases s with
  | nil => cases hl
  | cons q s' =>
    have hgrows := @Tree.grows_leave _ _ _ _ _ _ _ w.tokens h.parts h.nodup hin.node hcloses.tree
    have hparts := hgrows.parts
    have hrest := hcloses.rest
    have hnet : v.net = w.net := by rw [hrest]
    have hctx : v.context = some q.node := by
      rw [hrest]
      exact hparent
    have htokens : v.tokens = w.tokens := by rw [hrest]
    rw [← hnet] at hparts
    refine ⟨q, s', rfl, ha.stacks hparts hctx, ?_⟩
    show Grows w.net w.tree w.tokens _ v.tree v.tokens _
    rw [htokens]
    exact hgrows

theorem finish (h : w.Stacks p s) (hroot : w.atRoot = .ok true) (hfinish : w.finishRoot = .ok w') :
    s = [] ∧ Grows w.net w.tree w.tokens (p :: s) w'.tree w'.tokens [] := by
  obtain ⟨hl, r, v, hin, -, hcloses, rfl⟩ := h.aligned.finish_closes hroot hfinish
  obtain rfl := List.map_eq_nil_iff.1 hl
  have hgrows := @Tree.grows_finish _ _ _ _ _ w.tokens h.parts hin.node hcloses.tree
  have htokens : v.tokens = w.tokens := by rw [hcloses.rest]
  refine ⟨rfl, ?_⟩
  show Grows w.net w.tree w.tokens _ v.tree v.tokens _
  rw [htokens]
  exact hgrows

end Stacks

end Walker

end GrammarWalk
