import GrammarWalk.Proofs.Parse.Moves

/-! The nodes that a parse goes by exist: its context, the parents of its nodes, and the contexts
that its precedence rules were called in. And each state that it returns to has a call, or a rule
starts there. That is so over any network. -/

namespace GrammarWalk

def Network.Invokes (net : Network) (s : Nat) : Prop :=
  (∃ st k, net.states[s]? = some st ∧ .call k ∈ st.edges) ∨ ∃ r : Nat, net.ruleStarts[r]? = some s

namespace Tree

variable {P : Nat → Prop} {t t' : Tree} {x p c id : Nat} {f : RuleNode → RuleNode}

/-- The node exists if one is named. -/
def Holds (t : Tree) (o : Option Nat) : Prop := ∀ x ∈ o, x < t.size

theorem Holds.mono {o : Option Nat} (h : t.Holds o) (hsize : t.size ≤ t'.size) : t'.Holds o :=
  fun x hx => Nat.lt_of_lt_of_le (h x hx) hsize

theorem holds_none : t.Holds none := nofun

theorem holds_some : t.Holds (some x) ↔ x < t.size :=
  ⟨fun h => h x rfl, fun h _ hx => Option.some.inj hx ▸ h⟩

def HoldsParents (t : Tree) : Prop :=
  ∀ {x : Nat} {r : RuleNode}, t.nodes[x]? = some (.rule r) → t.Holds r.parent

/-- The parent of the node exists, and the state that called its rule has the property. -/
structure Keeps (P : Nat → Prop) (t : Tree) (r : RuleNode) : Prop where
  parent : t.Holds r.parent
  caller : ∀ s ∈ r.invoking, P s

def KeepsAll (P : Nat → Prop) (t : Tree) : Prop :=
  ∀ {x : Nat} {r : RuleNode}, t.nodes[x]? = some (.rule r) → t.Keeps P r

/-- `t'` comes from `t`, and its rule nodes are as they should be if those of `t` are. -/
structure Extends (P : Nat → Prop) (t t' : Tree) : Prop where
  size : t.size ≤ t'.size
  nodes : t.KeepsAll P → t'.KeepsAll P

theorem Extends.refl (P : Nat → Prop) (t : Tree) : Extends P t t := ⟨Nat.le_refl _, fun h => h⟩

theorem Extends.trans {a b c : Tree} (h : Extends P a b) (h' : Extends P b c) : Extends P a c :=
  ⟨Nat.le_trans h.size h'.size, fun ha => h'.nodes (h.nodes ha)⟩

theorem Extends.holds {o : Option Nat} (h : Extends P t t') (ho : t.Holds o) : t'.Holds o :=
  ho.mono h.size

theorem Keeps.mono {r : RuleNode} (h : t.Keeps P r) (hsize : t.size ≤ t'.size) : t'.Keeps P r :=
  ⟨h.parent.mono hsize, h.caller⟩

theorem extends_modifyRule (h : t.modifyRule id f = .ok t')
    (hf : ∀ r, t.Keeps P r → t.Keeps P (f r)) : Extends P t t' := by
  have hsize : t'.size = t.size := by
    simp only [modifyRule, bind_eq_ok, pure_eq_ok] at h
    obtain ⟨-, -, rfl⟩ := h
    exact Array.size_modify
  refine ⟨Nat.le_of_eq hsize.symm, fun hp x r hx => Keeps.mono ?_ (Nat.le_of_eq hsize.symm)⟩
  rw [(modifyRule_spec h).1] at hx
  split at hx
  · obtain ⟨n, hn, hr⟩ := Option.map_eq_some_iff.1 hx
    cases n with
    | rule old =>
      obtain rfl := Node.rule.inj hr
      exact hf old (hp hn)
    | leaf | error => cases hr
  · exact hp hx

theorem extends_attach (h : t.attach p c = .ok t') : Extends P t t' :=
  extends_modifyRule (f := fun r => { r with children := r.children ++ [c] }) h fun _ hr =>
    ⟨hr.parent, hr.caller⟩

theorem extends_push {n : Node} {root : Option Nat} (hn : ∀ r, n = .rule r → t.Keeps P r) :
    Extends P t { t with nodes := t.nodes.push n, root } := by
  have hsize : t.size ≤ (t.nodes.push n).size := by
    rw [Array.size_push]
    exact Nat.le_succ _
  refine ⟨hsize, fun hp x r hx => Keeps.mono ?_ hsize⟩
  rw [Array.getElem?_push] at hx
  split at hx
  · exact hn r (Option.some.inj hx)
  · exact hp hx

theorem extends_addRule (rule : Nat) {parent : Option Nat} (invoking : Option Nat) (start : Nat)
    (hp : t.Holds parent) (hi : ∀ s ∈ invoking, P s) :
    Extends P t (t.addRule rule parent invoking start).2 :=
  extends_push fun _ hr => Node.rule.inj hr ▸ ⟨hp, hi⟩

theorem lt_size_addRule {rule start : Nat} {parent invoking : Option Nat} :
    t.size < (t.addRule rule parent invoking start).2.size :=
  Nat.lt_of_lt_of_eq (Nat.lt_succ_self _) (Array.size_push ..).symm

theorem getElem?_of_ruleNode? {r : RuleNode} (h : t.ruleNode? x = .ok (some r)) :
    t.nodes[x]? = some (.rule r) := by
  simp only [ruleNode?, node, bind_eq_ok, Fault.ofLookup_eq_ok] at h
  obtain ⟨n, hn, h⟩ := h
  cases n with
  | rule r' =>
    obtain rfl := Option.some.inj (pure_eq_ok.1 h)
    exact hn
  | leaf | error => cases pure_eq_ok.1 h

theorem extends_addToken {n : Node} (hn : ∀ r, n ≠ .rule r) (h : t.addToken p n = .ok (id, t')) :
    Extends P t t' := by
  simp only [addToken, bind_eq_ok, pure_eq_ok, Prod.mk.injEq] at h
  obtain ⟨u, hu, -, rfl⟩ := h
  exact (extends_push fun r hr => absurd hr (hn r)).trans (extends_attach hu)

theorem addToken_returns {n : Node} (hp : p < t.size) : ∃ r, t.addToken p n = .ok r := by
  have hlt : p < (t.nodes.push n).size := by
    rw [Array.size_push]
    exact Nat.lt_succ_of_lt hp
  exact ⟨_, bind_eq_ok.2 ⟨_,
    bind_eq_ok.2 ⟨_, Fault.ofLookup_eq_ok.2 (Array.getElem?_eq_getElem hlt), rfl⟩, rfl⟩⟩

theorem extends_reparent (hp : t.Holds (some p)) (h : t.reparent c p = .ok t') :
    Extends P t t' := by
  have move {u : Tree} (hu : Extends P t u)
      (h : (do (← u.modifyRule c fun r => { r with parent := some p }).attach p c) = .ok t') :
      Extends P t t' := by
    obtain ⟨v, hv, h⟩ := bind_eq_ok.1 h
    exact (hu.trans (extends_modifyRule hv fun _ hr => ⟨hu.holds hp, hr.caller⟩)).trans
      (extends_attach h)
  have hroot : Extends P t (if t.root = some c then { t with root := some p } else t) := by
    split
    · exact ⟨Nat.le_refl _, fun h {_ _} hx => ⟨(h hx).parent, (h hx).caller⟩⟩
    · exact .refl P t
  simp only [reparent] at h
  generalize (if t.root = some c then { t with root := some p } else t) = t₀ at hroot h
  obtain ⟨n, -, h⟩ := bind_eq_ok.1 h
  split at h
  · obtain ⟨u, hu, h⟩ := bind_eq_ok.1 h
    exact move (hroot.trans (extends_modifyRule hu fun _ hr => ⟨hr.parent, hr.caller⟩)) h
  · obtain ⟨u, hu, h⟩ := bind_eq_ok.1 h
    exact move (pure_eq_ok.1 hu ▸ hroot) h

end Tree

namespace Walker

variable {P : Nat → Prop} {w w' : Walker} {st : State} {e : Edge} {f : Failure}

/-- The nodes that the parse goes by exist. -/
structure Grounded (w : Walker) : Prop where
  context : w.tree.Holds w.context
  recursions : ∀ r ∈ w.recursions, w.tree.Holds r.context
  parents : w.tree.HoldsParents

/-- The nodes that the parse goes by exist, and the states that called its rules have the
property. -/
structure Recalls (P : Nat → Prop) (w : Walker) : Prop where
  context : w.tree.Holds w.context
  recursions : ∀ r ∈ w.recursions, w.tree.Holds r.context ∧ ∀ s ∈ r.invoking, P s
  nodes : w.tree.KeepsAll P

theorem grounded_iff : w.Grounded ↔ w.Recalls fun _ => True :=
  ⟨fun h => ⟨h.context, fun r hr => ⟨h.recursions r hr, fun _ _ => trivial⟩,
      fun hx => ⟨h.parents hx, fun _ _ => trivial⟩⟩,
    fun h => ⟨h.context, fun r hr => (h.recursions r hr).1, fun hx => (h.nodes hx).parent⟩⟩

theorem Recalls.extend (h : w.Recalls P) (ht : Tree.Extends P w.tree w'.tree)
    (hc : w'.tree.Holds w'.context) (hr : ∀ r ∈ w'.recursions, r ∈ w.recursions) : w'.Recalls P :=
  ⟨hc, fun r hmem => (h.recursions r (hr r hmem)).imp_left ht.holds, ht.nodes h.nodes⟩

theorem Recalls.outer (h : w.Recalls P) :
    w.tree.Holds (w.recursions.head?.getD { context := none, invoking := none }).context ∧
      ∀ s ∈ (w.recursions.head?.getD { context := none, invoking := none }).invoking, P s := by
  cases hr : w.recursions with
  | nil => exact ⟨Tree.holds_none, nofun⟩
  | cons r rs => exact h.recursions r (by simp [hr])

theorem Recalls.enterRule {node start : Nat} (h : w.Recalls P) (hn : node < w.tree.size)
    (he : w.enterRule node start = .ok w') : w'.Recalls P := by
  rw [Walker.enterRule, bind_eq_ok] at he
  obtain ⟨r, -, he⟩ := he
  dsimp only at he
  split at he
  all_goals
    simp only [bind_eq_ok, pure_eq_ok] at he
    obtain ⟨tree, htree, rfl⟩ := he
  · have hext := Tree.extends_attach (P := P) htree
    exact h.extend hext (hext.holds (Tree.holds_some.2 hn)) fun _ hr => hr
  · subst htree
    exact h.extend (.refl P _) (Tree.holds_some.2 hn) fun _ hr => hr

theorem Recalls.enterRecursion {node start : Nat} {level : Int} (h : w.Recalls P)
    (hn : node < w.tree.size) (he : w.enterRecursion node start level = .ok w') : w'.Recalls P := by
  simp only [Walker.enterRecursion, bind_eq_ok, pure_eq_ok] at he
  obtain ⟨r, hr, rfl⟩ := he
  refine ⟨Tree.holds_some.2 hn, List.forall_mem_cons.2 ⟨⟨h.context, fun s hs => ?_⟩, h.recursions⟩,
    h.nodes⟩
  obtain ⟨q, rfl, hs⟩ := Option.bind_eq_some_iff.1 hs
  exact (h.nodes (Tree.getElem?_of_ruleNode? hr)).caller s hs

theorem Recalls.of_extends (h : w.Recalls P) {tree : Tree} (hext : Tree.Extends P w.tree tree) :
    Recalls P { w with tree } := h.extend hext (hext.holds h.context) fun _ hr => hr

theorem Recalls.enterRoot {rule : Nat} (h : w.Recalls P) (he : w.enterRoot rule = .ok w') :
    w'.Recalls P := by
  simp only [Walker.enterRoot, bind_eq_ok] at he
  obtain ⟨start, -, he⟩ := he
  have hadd := h.of_extends (Tree.extends_addRule rule none w.tokens.position Tree.holds_none
    fun s hs => absurd hs (Option.not_mem_none s))
  have hfirst : Recalls P { w with
      tree := (w.tree.addRule rule none none w.tokens.position).2, startRule := rule } :=
    ⟨hadd.context, hadd.recursions, hadd.nodes⟩
  split at he
  · exact hfirst.enterRecursion Tree.lt_size_addRule he
  · exact hfirst.enterRule Tree.lt_size_addRule he

theorem Grounded.enterRoot {rule : Nat} (h : w.Grounded) (he : w.enterRoot rule = .ok w') :
    w'.Grounded :=
  grounded_iff.2 ((grounded_iff.1 h).enterRoot he)

theorem Recalls.wrap {start : Nat} (h : w.Recalls P) (hstart : P start)
    (he : w.wrap start = .ok w') : w'.Recalls P := by
  simp only [Walker.wrap, bind_eq_ok] at he
  obtain ⟨node, -, he⟩ := he
  split at he
  · rename_i previous r _
    simp only [bind_eq_ok, pure_eq_ok] at he
    obtain ⟨u, hu, v, hv, rfl⟩ := he
    have houter := h.outer
    generalize w.recursions.head?.getD { context := none, invoking := none } = outer at houter hu
    -- a new node is made under that of the caller, and the old one goes under it
    have hadd := Tree.extends_addRule r.rule outer.invoking r.start houter.1 houter.2
    have hnew : Tree.Holds (w.tree.addRule r.rule outer.context outer.invoking r.start).2
        (some w.tree.size) :=
      Tree.holds_some.2 Tree.lt_size_addRule
    have hmove := Tree.extends_reparent (P := P) hnew hu
    have hnote := Tree.extends_modifyRule (P := P) hv fun _ hr =>
      ⟨hr.parent, fun s hs => Option.some.inj hs ▸ hstart⟩
    exact h.extend ((hadd.trans hmove).trans hnote) ((hmove.trans hnote).holds hnew) fun _ hr => hr
  · exact pure_eq_ok.1 he ▸ h

theorem Recalls.unwind {parent : Option Nat} (h : w.Recalls P) (hp : w.tree.Holds parent)
    (he : w.unwind parent = .ok w') : w'.Recalls P ∧ w'.state = w.state := by
  unfold Walker.unwind at he
  dsimp only at he
  split at he
  · obtain rfl := pure_eq_ok.1 he
    exact ⟨h.extend (.refl P _) h.context fun _ hr => hr, rfl⟩
  · rw [bind_eq_ok] at he
    obtain ⟨u, hu, he⟩ := he
    have hnote := Tree.extends_modifyRule (P := P) hu fun _ hr => ⟨hp, hr.caller⟩
    split at he
    all_goals
      simp only [bind_eq_ok, pure_eq_ok] at he
      obtain ⟨v, hv, rfl⟩ := he
    · have hlist := Tree.extends_attach (P := P) hv
      exact ⟨h.extend (hnote.trans hlist) ((hnote.trans hlist).holds hp) fun _ hr => hr, rfl⟩
    · subst hv
      exact ⟨h.extend hnote Tree.holds_none fun _ hr => hr, rfl⟩

theorem Recalls.exitRule (h : w.Recalls P) (he : w.exitRule = .ok w') :
    w'.Recalls P ∧ (w'.state = w.state ∨ P w'.state) := by
  unfold Walker.exitRule at he
  split at he
  · exact pure_eq_ok.1 he ▸ ⟨h, .inl rfl⟩
  · rw [bind_eq_ok] at he
    obtain ⟨node, hnode, he⟩ := he
    split at he
    · obtain rfl := pure_eq_ok.1 he
      exact ⟨h.extend (.refl P _) Tree.holds_none fun _ hr => hr, .inl rfl⟩
    · rename_i r
      simp only [bind_eq_ok, pure_eq_ok] at he
      obtain ⟨v, hv, rfl⟩ := he
      have hkept := h.nodes (Tree.getElem?_of_ruleNode? hnode)
      have hnote := Tree.extends_modifyRule (P := P) hv fun _ hr => ⟨hr.parent, hr.caller⟩
      refine ⟨h.extend hnote (hnote.holds hkept.parent) fun _ hr => hr, ?_⟩
      cases hi : r.invoking with
      | none => exact .inl rfl
      | some s => exact .inr (hkept.caller s hi)

theorem Recalls.visitStop (h : w.Recalls P) (he : w.visitStop = .ok w') : w'.Recalls P ∧
    ∃ s caller, (s = w.state ∨ P s) ∧ w.net.states[s]? = some caller ∧
      w'.state = (caller.edges.findSome? fun e => e.call?.map (·.follow)).getD s := by
  have hnet := (continues_visitStop he).net
  rw [Walker.visitStop, bind_eq_ok] at he
  obtain ⟨_, -, he⟩ := he
  dsimp only at he
  split at he
  · simp only [bind_eq_ok, pure_eq_ok] at he
    obtain ⟨u, hu, v, rfl, follow, hfollow, rfl⟩ := he
    have hopen : Recalls P { w with recursions := w.recursions.tail } :=
      h.extend (.refl P _) h.context fun _ hr => List.mem_of_mem_tail hr
    obtain ⟨hu, hstate⟩ := hopen.unwind h.outer.1 hu
    obtain ⟨caller, hcaller, rfl⟩ := followOf_eq_ok hfollow
    refine ⟨⟨hu.context, hu.recursions, hu.nodes⟩, _, caller, ?_, hnet ▸ hcaller, rfl⟩
    have hcalled := h.outer.2
    generalize w.recursions.head?.getD { context := none, invoking := none } = outer at hcalled
    cases hi : outer.invoking with
    | none => exact .inl hstate
    | some s => exact .inr (hcalled s hi)
  · simp only [bind_eq_ok, pure_eq_ok] at he
    obtain ⟨v, hv, follow, hfollow, rfl⟩ := he
    obtain ⟨hv, hstate⟩ := h.exitRule hv
    obtain ⟨caller, hcaller, rfl⟩ := followOf_eq_ok hfollow
    exact ⟨⟨hv.context, hv.recursions, hv.nodes⟩, v.state, caller, hstate, hnet ▸ hcaller, rfl⟩

theorem Recalls.finishRoot (h : w.Recalls P) (he : w.finishRoot = .ok w') : w'.Recalls P := by
  unfold Walker.finishRoot at he
  dsimp only at he
  split at he
  all_goals
    simp only [bind_eq_ok, pure_eq_ok] at he
    obtain ⟨v, hv, rfl⟩ := he
  · have hopen : Recalls P { w with recursions := w.recursions.tail } :=
      h.extend (.refl P _) h.context fun _ hr => List.mem_of_mem_tail hr
    have houter : w.tree.Holds (w.recursions.head?.bind (·.context)) := by
      have houter := h.outer.1
      cases hr : w.recursions.head? <;> rw [hr] at houter <;> exact houter
    obtain ⟨hv, -⟩ := hopen.unwind houter hv
    exact ⟨hv.context, hv.recursions, hv.nodes⟩
  · obtain ⟨hv, -⟩ := h.exitRule hv
    exact ⟨hv.context, hv.recursions, hv.nodes⟩

theorem Recalls.addToken {t : Tree} {tokens : Tokens} {c id : Nat} {n : Node} (h : w.Recalls P)
    (ht : w.tree.addToken c n = .ok (id, t)) (hn : ∀ r, n ≠ .rule r) :
    Recalls P { w with tree := t, tokens } := by
  have hg := h.of_extends (Tree.extends_addToken hn ht)
  exact ⟨hg.context, hg.recursions, hg.nodes⟩

theorem Recalls.takeToken {fits : Int → Bool} (h : w.Recalls P)
    (he : w.takeToken fits = .ok (.ok w')) : w'.Recalls P := by
  unfold Walker.takeToken at he
  split at he
  · split at he
    · simp only [bind_eq_ok, pure_eq_ok, Except.ok.injEq] at he
      obtain ⟨⟨_, u⟩, hu, _, rfl, rfl⟩ := he
      exact h.addToken hu nofun
    · simp only [bind_eq_ok, pure_eq_ok, Except.ok.injEq] at he
      obtain ⟨_, rfl, rfl⟩ := he
      exact ⟨h.context, h.recursions, h.nodes⟩
  · simp only [bind_eq_ok, pure_eq_ok, reduceCtorEq, and_false, exists_false] at he

theorem Recalls.takeEdge (h : w.Recalls P) (hcall : ∀ k, e = .call k → P w.state)
    (hstart : ∀ (r s : Nat), w.net.ruleStarts[r]? = some s → P s)
    (he : w.takeEdge st e = .ok (.ok w')) : w'.Recalls P := by
  unfold Walker.takeEdge at he
  split at he
  · split at he
    · rw [bind_eq_ok] at he
      obtain ⟨_, -, he⟩ := he
      split at he
      · exact Except.ok.inj (pure_eq_ok.1 he) ▸ h
      · simp only [bind_eq_ok, pure_eq_ok, Except.ok.injEq, Fault.ofLookup_eq_ok] at he
        obtain ⟨start, hs, v, hv, rfl⟩ := he
        exact h.wrap (hstart _ start hs) hv
    · exact Except.ok.inj (pure_eq_ok.1 he) ▸ h
  · exact h.takeToken he
  · exact h.takeToken he
  · exact h.takeToken he
  · exact h.takeToken he
  · exact h.takeToken he
  · rename_i c
    have hadd := h.of_extends (Tree.extends_addRule c.rule
      (some w.state) w.tokens.position h.context fun s hs => Option.some.inj hs ▸ hcall c rfl)
    dsimp only at he
    split at he
    all_goals
      simp only [bind_eq_ok, pure_eq_ok, Except.ok.injEq] at he
      obtain ⟨v, hv, rfl⟩ := he
    · exact hadd.enterRecursion Tree.lt_size_addRule hv
    · exact hadd.enterRule Tree.lt_size_addRule hv
  · split at he
    · cases pure_eq_ok.1 he
    · exact Except.ok.inj (pure_eq_ok.1 he) ▸ h
  · exact Except.ok.inj (pure_eq_ok.1 he) ▸ h
  · exact Except.ok.inj (pure_eq_ok.1 he) ▸ h

theorem Recalls.visit (h : w.Recalls P) (hP : ∀ s, w.net.Invokes s → P s)
    (he : w.visit = .ok (.ok w')) : w'.Recalls P := by
  obtain ⟨st, number, hst, -, ⟨e, v, hedge, htaken, rfl⟩ | ⟨-, ⟨-, rfl⟩ | ⟨_, stop, -, -, rfl⟩⟩⟩ :=
    visit_eq_ok he
  · have hv := h.takeEdge (fun k hk => hP _ (.inl ⟨st, k, hst, hk ▸ List.mem_of_getElem? hedge⟩))
      (fun r s hs => hP s (.inr ⟨r, hs⟩)) htaken
    exact ⟨hv.context, hv.recursions, hv.nodes⟩
  · exact h
  · exact ⟨h.context, h.recursions, h.nodes⟩

theorem Recalls.skipToken (h : w.Recalls P) (he : w.skipToken = .ok w') : w'.Recalls P := by
  unfold Walker.skipToken at he
  split at he
  · simp only [bind_eq_ok, pure_eq_ok] at he
    obtain ⟨⟨_, u⟩, hu, _, rfl, rfl⟩ := he
    exact h.addToken hu nofun
  · simp only [bind_eq_ok, pure_eq_ok] at he
    obtain ⟨_, rfl, rfl⟩ := he
    exact ⟨h.context, h.recursions, h.nodes⟩

theorem Recalls.recover (h : w.Recalls P) (he : w.recover = .ok w') : w'.Recalls P := by
  obtain ⟨u, v, recovery, hu, rfl, -, hskip⟩ := recover_eq_ok he
  have hdrop : u.Recalls P := by
    split at hu
    · exact h.skipToken hu
    · exact hu ▸ h
  refine skipTo_induction (P := Recalls P) (fun _ _ hv he => hv.skipToken he) ?_ hskip
  exact ⟨hdrop.context, hdrop.recursions, hdrop.nodes⟩

theorem Recalls.fail (h : w.Recalls P) (he : w.fail f = .ok w') : w'.Recalls P := by
  simp only [Walker.fail, bind_eq_ok] at he
  obtain ⟨_, -, stop, -, he⟩ := he
  have failed {v : Walker} {stop : Nat} (hv : v.Recalls P) :
      Recalls P { v with state := stop, failures := v.failures ++ [f] } :=
        ⟨hv.context, hv.recursions, hv.nodes⟩
  split at he
  all_goals
    rw [bind_eq_ok] at he
    obtain ⟨tree, htree, he⟩ := he
  · exact (failed (h.of_extends (Tree.extends_modifyRule htree fun _ hr =>
      ⟨hr.parent, hr.caller⟩))).recover he
  · obtain rfl := pure_eq_ok.1 htree
    exact (failed h).recover he

end Walker

end GrammarWalk
