import GrammarWalk.Proofs.Network.Sealed
import GrammarWalk.Proofs.Parse.Moves

/-! The rules that a parse is inside of. Each open node but the root names the state that called its
rule, which belongs to the rule of the next open node; that chain is what returns go along. -/

namespace GrammarWalk

/-- Where a return to the state goes on: behind its first call. -/
def State.goesOn? (st : State) : Option Nat := st.edges.findSome? fun e => e.call?.map (·.follow)

theorem State.goesOn?_of_mem {st : State} {k : Call} (hk : .call k ∈ st.edges) :
    ∃ first, .call first ∈ st.edges ∧ st.goesOn? = some first.follow := by
  have hsome : st.goesOn?.isSome = true := List.findSome?_isSome_iff.2 ⟨_, hk, rfl⟩
  obtain ⟨follow, hfollow⟩ := Option.isSome_iff_exists.1 hsome
  obtain ⟨e, he, hcall⟩ := List.exists_of_findSome?_eq_some hfollow
  obtain ⟨first, hfirst, rfl⟩ := Option.map_eq_some_iff.1 hcall
  obtain rfl := Edge.call?_eq_some.1 hfirst
  exact ⟨first, he, hfollow⟩

/-- An open node, with its rule and the state that called it. -/
structure Context where
  node : Nat
  rule : Nat
  invoking : Option Nat
deriving DecidableEq, Repr, Inhabited

/-- The open nodes up to the root, innermost first: from a node on, along the parents. -/
inductive Tree.Open (t : Tree) : Option Nat → List Context → Prop
  | nil : Open t none []
  | cons {id : Nat} {r : RuleNode} {l : List Context} : t.nodes[id]? = some (.rule r) →
      Open t r.parent l →
      Open t (some id) (⟨id, r.rule, r.invoking⟩ :: l)

namespace Tree.Open

variable {t t' : Tree} {ctx : Option Nat} {l : List Context}

theorem context_eq (h : t.Open ctx l) : ctx = l.head?.map (·.node) := by
  cases h <;> rfl

theorem congr (h : t.Open ctx l)
    (hsame : ∀ c ∈ l, ∀ r, t.nodes[c.node]? = some (.rule r) → ∃ r', t'.nodes[c.node]? =
      some (.rule r') ∧ r'.rule = r.rule ∧ r'.parent = r.parent ∧ r'.invoking = r.invoking) :
    t'.Open ctx l := by
  induction h with
  | nil => exact .nil
  | @cons id r l hr _ ih =>
    obtain ⟨r', hr', hrule, hparent, hinvoking⟩ := hsame _ List.mem_cons_self r hr
    have hrest := ih fun c hc => hsame c (List.mem_cons_of_mem _ hc)
    rw [← hrule, ← hinvoking]
    exact .cons hr' (hparent ▸ hrest)

theorem unique {l' : List Context} (h : t.Open ctx l) (h' : t.Open ctx l') : l = l' := by
  induction h generalizing l' with
  | nil =>
    cases h'
    rfl
  | cons hr _ ih =>
    cases h' with
    | cons hr' hrest =>
      obtain rfl := Node.rule.inj (Option.some.inj (hr.symm.trans hr'))
      rw [ih hrest]

theorem of_mem (h : t.Open ctx l) {c : Context} (hc : c ∈ l) :
    ∃ r, t.nodes[c.node]? = some (.rule r) := by
  induction h with
  | nil => cases hc
  | cons hr _ ih =>
    rcases List.mem_cons.1 hc with rfl | hc
    · exact ⟨_, hr⟩
    · exact ih hc

/-- The open nodes are the same when nothing but nodes outside of them and what a node lists has
changed. -/
theorem of_other (h : t.Open ctx l) {p : Nat} {r r' : RuleNode} (hp : t.nodes[p]? = some (.rule r))
    (hp' : t'.nodes[p]? = some (.rule r')) (hrule : r'.rule = r.rule)
    (hparent : r'.parent = r.parent) (hinvoking : r'.invoking = r.invoking)
    (hother : ∀ y, y ≠ t.size → y ≠ p → t'.nodes[y]? = t.nodes[y]?) : t'.Open ctx l := by
  refine h.congr fun c _ q hq => ?_
  by_cases hcp : c.node = p
  · rw [hcp, hp] at hq
    obtain rfl := Node.rule.inj (Option.some.inj hq)
    exact ⟨r', hcp ▸ hp', hrule, hparent, hinvoking⟩
  · exact ⟨q, (hother _ (ne_size hq) hcp).trans hq, rfl, rfl, rfl⟩

end Tree.Open

/-- Each open node but the root was called by a state of the next node's rule; the root is of rule
`start`. -/
inductive Stacked (net : Network) (start : Nat) : List Context → Prop
  | root {node : Nat} : Stacked net start [⟨node, start, none⟩]
  | call {node s : Nat} {st : State} {k : Call} {d : Context} {l : List Context} :
      Stacked net start (d :: l) →
      net.states[s]? = some st → st.isRuleStop = false → .call k ∈ st.edges →
      st.rule = some d.rule →
      Stacked net start (⟨node, k.rule, some s⟩ :: d :: l)

/-- The rule of node `c` was entered by call `k` in state `s` of the rule of node `d`. -/
structure CalledBy (net : Network) (c d : Context) (s : Nat) (st : State) (k : Call) : Prop where
  invoking : c.invoking = some s
  state : net.states[s]? = some st
  going : st.isRuleStop = false
  edge : .call k ∈ st.edges
  owner : st.rule = some d.rule
  rule : k.rule = c.rule

theorem Stacked.calledBy {net : Network} {start : Nat} {c : Context} {l : List Context}
    (h : Stacked net start (c :: l)) (hc : c.invoking.isNone = false) :
    ∃ d l' s st k, l = d :: l' ∧ CalledBy net c d s st k ∧ Stacked net start (d :: l') := by
  cases h with
  | root => cases hc
  | call hrest hs hns hk hd => exact ⟨_, _, _, _, _, rfl, ⟨rfl, hs, hns, hk, hd, rfl⟩, hrest⟩

theorem Stacked.replace {net : Network} {start : Nat} {c d : Context} {l : List Context}
    (h : Stacked net start (c :: l)) (hrule : d.rule = c.rule)
    (hinvoking : d.invoking = c.invoking) : Stacked net start (d :: l) := by
  obtain ⟨node, rule, invoking⟩ := d
  obtain rfl : rule = _ := hrule
  obtain rfl : invoking = _ := hinvoking
  cases h with
  | root => exact .root
  | call hrest hs hns hk howner => exact .call hrest hs hns hk howner

/-- What the edge that a parse takes in state `s`, if it is a call, makes of the open nodes. -/
inductive Context.Step (s : Nat) (c : Context) (l : List Context) :
    Option Call → Context → List Context → Prop
  | within {d : Context} : d.rule = c.rule → d.invoking = c.invoking → Step s c l none d l
  | called {k : Call} {d : Context} : d.rule = k.rule → d.invoking = some s →
      Step s c l (some k) d (c :: l)

def recursionsOf (net : Network) : List Context → List Recursion
  | [] => []
  | c :: l =>
    if net.isPrecedenceRule c.rule then
      { context := l.head?.map (·.node), invoking := c.invoking } :: recursionsOf net l
    else recursionsOf net l

namespace Walker

/-- The parse is inside the rules of the open nodes, and its state belongs to the innermost. -/
structure Aligned (w : Walker) (c : Context) (l : List Context) : Prop where
  tree : w.tree.Open w.context (c :: l)
  order : ((c :: l).map (·.node)).Pairwise (· > ·)
  stacked : Stacked w.net w.startRule (c :: l)
  recursions : w.recursions = recursionsOf w.net (c :: l)
  state : w.net.ownerOf w.state = some c.rule

/-- The rules of the open nodes whose start state the parse has gone past, innermost first. -/
def entered (w : Walker) (c : Context) (l : List Context) : List Nat :=
  if w.net.startsRule w.state then l.map (·.rule) else (c :: l).map (·.rule)

variable {w w' : Walker} {c : Context} {l : List Context} {r : RuleNode} {st : State}

/-- The node of the innermost rule. -/
structure Stands (w : Walker) (c : Context) (l : List Context) (r : RuleNode) :
    Prop extends w.In c.node r where
  rule : r.rule = c.rule
  invoking : r.invoking = c.invoking
  rest : w.tree.Open r.parent l
  below : ∀ p, r.parent = some p → p < c.node ∧ ∃ q, w.tree.nodes[p]? = some (.rule q)

theorem Aligned.stands (h : w.Aligned c l) : ∃ r, w.Stands c l r := by
  obtain ⟨hopen, horder, -, -, -⟩ := h
  generalize hctx : w.context = ctx at hopen
  cases hopen with
  | @cons id r _ hr hrest =>
    refine ⟨r, ⟨hctx, hr⟩, rfl, rfl, hrest, fun p hp => ?_⟩
    rw [hp] at hrest
    cases hrest with
    | cons hq _ => exact ⟨(List.pairwise_cons.1 horder).1 p List.mem_cons_self, _, hq⟩

theorem Aligned.outer (h : w.Aligned c l) (hp : w.net.isPrecedenceRule c.rule = true) :
    w.outer = { context := l.head?.map (·.node), invoking := c.invoking } := by
  rw [Walker.outer, h.recursions, recursionsOf, if_pos hp]
  rfl

theorem open_wrap {t t' : Tree} {id start : Nat} {invoking : Option Nat} (hopen : t.Open r.parent l)
    (hlt : ∀ d ∈ l, d.node < id) (hw : t.Wraps t' id r r.parent invoking start) :
    t'.Open (some t.size) (⟨t.size, r.rule, invoking⟩ :: l) := by
  refine .cons hw.node (hopen.congr fun d hd q hq => ?_)
  have hne : d.node ≠ id := Nat.ne_of_lt (hlt d hd)
  by_cases hpar : r.parent = some d.node
  · refine ⟨q.dropChild id, ?_, rfl, rfl, rfl⟩
    rw [hw.unlisted _ hpar, hq]
    rfl
  · exact ⟨q, (hw.other _ (Tree.ne_size hq) hne hpar).trans hq, rfl, rfl, rfl⟩

theorem Aligned.order_new (h : w.Aligned c l) {d : Context} {l' : List Context}
    (hd : d.node = w.tree.size) (hsub : ∀ x ∈ l', x ∈ c :: l)
    (horder : (l'.map (·.node)).Pairwise (· > ·)) : ((d :: l').map (·.node)).Pairwise (· > ·) := by
  refine List.pairwise_cons.2 ⟨fun p hp => ?_, horder⟩
  obtain ⟨x, hx, rfl⟩ := List.mem_map.1 hp
  obtain ⟨q, hq⟩ := h.tree.of_mem (hsub x hx)
  show x.node < d.node
  rw [hd]
  exact Tree.lt_size hq

section moves

variable {e : Edge} {v : Walker}

theorem entered_of_not_startsRule (h : w.net.startsRule w.state = false) :
    w.entered c l = (c :: l).map (·.rule) := by
  rw [entered, h]
  rfl

theorem startsRule_of_stop {net : Network} (hw : net.Wired) {rule stop : Nat}
    (hstop : net.ruleStops[rule]? = some stop) :
    net.ownerOf stop = some rule ∧ net.startsRule stop = false := by
  obtain ⟨st, hst, hkind, hrule⟩ := hw.stop hstop
  exact ⟨(Network.ownerOf_eq hst).trans hrule, Network.startsRule_of_isRuleStop hst hkind⟩

theorem Aligned.took (h : w.Aligned c l) (hin : w.Stands c l r) (hw : w.net.Wired)
    (henc : w.net.Enclosed) (hmarks : w.net.MarksPrecedence)
    (hst : w.net.states[w.state]? = some st) (hns : st.isRuleStop = false) (he : e ∈ st.edges)
    (htook : w.Took st c.node r e v) :
    ∃ c' l', { v with state := e.target }.Aligned c' l' ∧
      { v with state := e.target }.entered c' l' = (c :: l).map (·.rule) ∧
      Context.Step w.state c l e.call? c' l' := by
  have howner : st.rule = some c.rule := (Network.ownerOf_eq hst).symm.trans h.state
  have hgo (hcall : e.call? = none) :
      w.net.ownerOf e.target = some c.rule ∧ w.net.startsRule e.target = false := by
    have := henc.inside hst hns he
    rwa [Edge.onward_of_call?_eq_none hcall, howner] at this
  have hcalled {k : Call} (hk : .call k ∈ st.edges) : w.net.ownerOf k.start = some k.rule ∧
      w.net.startsRule k.start = true := by
    have hstart := henc.call hst hk
    obtain ⟨sst, hsst, his⟩ := hw.start hstart
    exact ⟨henc.start hstart, by rw [Network.startsRule, hsst]; exact his⟩
  cases htook with
  | silent hs hcall =>
    obtain ⟨hto, hnot⟩ := hgo hcall
    exact ⟨c, l, ⟨h.tree, h.order, h.stacked, h.recursions, hto⟩, entered_of_not_startsRule hnot,
      hcall ▸ .within rfl rfl⟩
  | @wrap target start d loopback returning tree hk hstart hwraps =>
    obtain ⟨hto, hnot⟩ := hgo rfl
    have hprec : w.net.isPrecedenceRule c.rule = true := by
      simpa [howner] using hmarks _ _ _ _ hst hk
    have hctx := hin.rest.context_eq
    rw [h.outer hprec, ← hctx, ← hin.invoking] at hwraps
    have hopen := open_wrap hin.rest
      (fun d hd => (List.pairwise_cons.1 h.order).1 _ (List.mem_map_of_mem hd)) hwraps
    rw [hin.rule, hin.invoking] at hopen
    exact ⟨⟨w.tree.size, c.rule, c.invoking⟩,
      l, ⟨hopen, h.order_new rfl (fun x => List.mem_cons_of_mem c) (List.pairwise_cons.1 h.order).2,
      h.stacked.replace rfl rfl, h.recursions, hto⟩, entered_of_not_startsRule hnot,
      .within rfl rfl⟩
  | @token e v hfits hreads =>
    obtain ⟨tree, hatt, rfl⟩ := hreads
    have hcall : e.call? = none := by
      cases e <;> first | rfl | cases hfits
    obtain ⟨hto, hnot⟩ := hgo hcall
    have hopen := h.tree.of_other hin.node hatt.parent rfl rfl rfl hatt.other
    exact ⟨c, l, ⟨hopen, h.order, h.stacked, h.recursions, hto⟩, entered_of_not_startsRule hnot,
      hcall ▸ .within rfl rfl⟩
  | @call k tree hp hatt =>
    obtain ⟨hto, hat⟩ := hcalled he
    have hopen := h.tree.of_other hin.node hatt.parent rfl rfl rfl hatt.other
    rw [hin.context] at hopen
    refine ⟨⟨w.tree.size, k.rule, some w.state⟩, c :: l, ⟨.cons hatt.node hopen,
      h.order_new rfl (fun x => id) h.order, h.stacked.call hst hns he howner, ?_, hto⟩, if_pos hat,
      .called rfl rfl⟩
    rw [recursionsOf, if_neg (by simpa using hp)]
    exact h.recursions
  | @recurse k tree hp hset hroot =>
    obtain ⟨hto, hat⟩ := hcalled he
    have hopen :=
      h.tree.of_other hin.node ((hset.other _ (Tree.ne_size hin.node)).trans hin.node) rfl rfl rfl
      fun y hy _ => hset.other y hy
    rw [hin.context] at hopen
    refine ⟨⟨w.tree.size, k.rule, some w.state⟩, c :: l, ⟨.cons hset.node hopen,
      h.order_new rfl (fun x => id) h.order, h.stacked.call hst hns he howner, ?_, hto⟩, if_pos hat,
      .called rfl rfl⟩
    rw [recursionsOf, if_pos hp]
    exact congrArg _ h.recursions

def callTaken? (w : Walker) : Option Call :=
  match w.net.states[w.state]? with
  | none => none
  | some st =>
    match w.chooseEdge st with
    | .ok (.ok number) => st.edges[number - 1]?.bind Edge.call?
    | _ => none

theorem callTaken?_eq {number : Nat} (hst : w.net.states[w.state]? = some st)
    (hchoose : w.chooseEdge st = .ok (.ok number)) :
    w.callTaken? = st.edges[number - 1]?.bind Edge.call? := by
  rw [callTaken?, hst]
  dsimp only
  rw [hchoose]

theorem Aligned.visit (h : w.Aligned c l) (hw : w.net.Wired) (henc : w.net.Enclosed)
    (hmarks : w.net.MarksPrecedence) (hst : w.net.states[w.state]? = some st)
    (hns : st.isRuleStop = false) (hvisit : w.visit = .ok (.ok w')) :
    ∃ c' l', w'.Aligned c' l' ∧ w'.entered c' l' = (c :: l).map (·.rule) ∧
      Context.Step w.state c l w.callTaken? c' l' := by
  obtain ⟨r, hin⟩ := h.stands
  obtain ⟨st', number, hst', hchoose, hcases⟩ :=
    visit_cases hin.toIn (fun p hp => (hin.below p hp).1) hvisit
  obtain rfl := Option.some.inj (hst.symm.trans hst')
  rw [callTaken?_eq hst hchoose]
  obtain ⟨e, v, he, htook, rfl⟩ | ⟨hnone, ⟨howner, -⟩ | ⟨rule, stop, hrule, hstop, rfl⟩⟩ := hcases
  · rw [he]
    exact h.took hin hw henc hmarks hst hns (List.mem_of_getElem? he) htook
  · have hstate := (Network.ownerOf_eq hst).symm.trans h.state
    rw [howner] at hstate
    cases hstate
  · obtain ⟨hto, hnot⟩ := startsRule_of_stop hw hstop
    rw [hnone]
    refine ⟨c, l, ⟨h.tree, h.order, h.stacked, h.recursions, hto.trans ?_⟩,
      entered_of_not_startsRule hnot, .within rfl rfl⟩
    rw [← hrule, ← Network.ownerOf_eq hst, h.state]

/-- A failure is noted in the innermost node, and the parse goes to the stop of its rule. -/
theorem Aligned.note (h : w.Aligned c l) (hw : w.net.Wired) {tree : Tree} {r' : RuleNode}
    {rule stop : Nat} {failures : List Failure} (hin : w.In c.node r)
    (hst : w.net.states[w.state]? = some st) (hrule : rule = st.rule.getD 0)
    (hstop : w.net.ruleStops[rule]? = some stop) (hset : w.tree.Sets tree c.node (.rule r'))
    (hsame : r'.rule = r.rule ∧ r'.parent = r.parent ∧ r'.invoking = r.invoking) :
    { w with tree, state := stop, failures }.Aligned c l ∧ w.net.startsRule stop = false := by
  obtain ⟨hto, hnot⟩ := startsRule_of_stop hw hstop
  have howner := (Network.ownerOf_eq hst).symm.trans h.state
  have hopen :=
    h.tree.of_other hin.node hset.node hsame.1 hsame.2.1 hsame.2.2 fun y _ hy => hset.other y hy
  refine ⟨⟨hopen, h.order, h.stacked, h.recursions, hto.trans ?_⟩, hnot⟩
  rw [hrule, howner]
  rfl

theorem Aligned.skipToken (h : w.Aligned c l) (hskip : w.skipToken = .ok w') :
    w'.Aligned c l ∧ w'.state = w.state ∧ w'.net = w.net := by
  obtain ⟨r, hr⟩ := h.stands
  obtain ⟨tree, hatt, rfl⟩ := skipToken_reads hr.toIn hskip
  exact ⟨⟨h.tree.of_other hr.node hatt.parent rfl rfl rfl hatt.other, h.order, h.stacked,
    h.recursions, h.state⟩, rfl, rfl⟩

theorem Aligned.fail (h : w.Aligned c l) (hw : w.net.Wired) {f : Failure}
    (hvisit : w.visit = .ok (.error f)) (hfail : w.fail f = .ok w') :
    w'.Aligned c l ∧ w'.entered c l = (c :: l).map (·.rule) := by
  obtain ⟨r, hin⟩ := h.stands
  suffices hkeeps : w'.Aligned c l ∧ w'.net.startsRule w'.state = false from
    ⟨hkeeps.1, entered_of_not_startsRule hkeeps.2⟩
  refine fail_induction (P := fun v => v.Aligned c l ∧
    v.net.startsRule v.state = false) hin.toIn hfail ?_ ?_ ?_
  · intro st stop tree hst hstop hset _
    rw [(failsHere_of_visit hvisit).1] at hst
    exact h.note hw hin.toIn hst rfl hstop hset ⟨rfl, rfl, rfl⟩
  · rintro v index states ⟨hv, hnot⟩
    exact ⟨⟨hv.tree, hv.order, hv.stacked, hv.recursions, hv.state⟩, hnot⟩
  · rintro v v' ⟨hv, hnot⟩ hskip
    obtain ⟨hv', hstate, hnet⟩ := hv.skipToken hskip
    rw [hstate, hnet]
    exact ⟨hv', hnot⟩

theorem open_closes {t t' : Tree} {id : Nat} {precedence : Bool} (hopen : t.Open r.parent l)
    (hlt : ∀ d ∈ l, d.node < id) (hc : t.Closes t' id r precedence) : t'.Open r.parent l := by
  refine hopen.congr fun d hd q hq => ?_
  have hne : d.node ≠ id := Nat.ne_of_lt (hlt d hd)
  cases hc with
  | noted _ hset _ => exact ⟨q, (hset.other _ hne).trans hq, rfl, rfl, rfl⟩
  | @listed p q' hp hq' hlist =>
    by_cases hdp : d.node = p
    · rw [hdp, hq'] at hq
      obtain rfl := Node.rule.inj (Option.some.inj hq)
      exact ⟨q'.addChild id, hdp ▸ hlist.parent, rfl, rfl, rfl⟩
    · exact ⟨q, (hlist.other _ hne hdp).trans hq, rfl, rfl, rfl⟩

theorem atRoot_eq (hin : w.In c.node r) : w.atRoot = .ok r.invoking.isNone := by
  simp only [atRoot, contextNode?, hin.context, Tree.ruleNode?_of_getElem? hin.node]
  rfl

theorem Aligned.leave_closes (h : w.Aligned c l) (hst : w.net.states[w.state]? = some st)
    (hvisit : w.visitStop = .ok w') :
    ∃ r v caller, w.Stands c l r ∧ w.Closes c.node r (w.net.isPrecedenceRule c.rule) v ∧
      w.net.states[v.state]? = some caller ∧ w' = { v with
        state := (caller.edges.findSome? fun e => e.call?.map (·.follow)).getD v.state } := by
  obtain ⟨r, hin⟩ := h.stands
  have howner : st.rule.getD 0 = c.rule := by
    rw [(Network.ownerOf_eq hst).symm.trans h.state]
    rfl
  have htop : w.Tops r (w.net.isPrecedenceRule (st.rule.getD 0)) := fun hp => by
    rw [h.outer (howner ▸ hp), hin.rest.context_eq, hin.invoking]
  obtain ⟨v, caller, hcloses, hcaller, rfl⟩ := visitStop_closes hin.toIn hst hin.below htop hvisit
  exact ⟨r, v, caller, hin, howner ▸ hcloses, hcaller, rfl⟩

/-- A return closes the innermost node and goes on behind the first call of the state that its rule
was called from. -/
theorem Aligned.comesBack (h : w.Aligned c l) (hst : w.net.states[w.state]? = some st)
    (hroot : w.atRoot = .ok false) (hvisit : w.visitStop = .ok w') :
    ∃ r v d l' s cst k first, l = d :: l' ∧
      CalledBy w.net c d s cst k ∧ Stacked w.net w.startRule (d :: l') ∧ w.Stands c l r ∧
      w.Closes c.node r (w.net.isPrecedenceRule c.rule) v ∧ .call first ∈ cst.edges ∧
      cst.goesOn? = some first.follow ∧ w' = { v with state := first.follow } := by
  obtain ⟨r, v, caller, hin, hcloses, hcaller, rfl⟩ := h.leave_closes hst hvisit
  rw [atRoot_eq hin.toIn, hin.invoking] at hroot
  have hinvoking : c.invoking.isNone = false := Except.ok.inj hroot
  obtain ⟨d, l', s, cst, k, rfl, hcall, hrest⟩ := h.stacked.calledBy hinvoking
  rw [hcloses.rest, hin.invoking, hcall.invoking] at hcaller
  obtain rfl := Option.some.inj (hcall.state.symm.trans hcaller)
  obtain ⟨first, hfirst, hgoes⟩ := State.goesOn?_of_mem hcall.edge
  refine ⟨r, v, d, l', s, cst, k, first, rfl, hcall, hrest, hin, hcloses, hfirst, hgoes, ?_⟩
  rw [← State.goesOn?, hgoes]
  rfl

theorem Aligned.returns (h : w.Aligned c l) (hseal : w.net.Sealed)
    (hst : w.net.states[w.state]? = some st) (hroot : w.atRoot = .ok false)
    (hvisit : w.visitStop = .ok w') :
    ∃ r v d l' s cst k, l = d :: l' ∧
      CalledBy w.net c d s cst k ∧ Stacked w.net w.startRule (d :: l') ∧ w.Stands c l r ∧
      w.Closes c.node r (w.net.isPrecedenceRule c.rule) v ∧ w' = { v with state := k.follow } := by
  obtain ⟨r, v, d, l', s, cst, k, first, rfl, hcall, hrest, hin, hcloses, hfirst, -, rfl⟩ :=
    h.comesBack hst hroot hvisit
  refine ⟨r, v, d, l', s, cst, k, rfl, hcall, hrest, hin, hcloses, ?_⟩
  rw [hseal.callsAgree s cst first k hcall.state hfirst hcall.edge]

theorem Aligned.visitStop (h : w.Aligned c l) (henc : w.net.Enclosed)
    (hst : w.net.states[w.state]? = some st) (hroot : w.atRoot = .ok false)
    (hvisit : w.visitStop = .ok w') :
    ∃ d l', l = d :: l' ∧ w'.Aligned d l' ∧ w'.entered d l' = l.map (·.rule) := by
  obtain ⟨r, v, d, l', s, cst, k, first, rfl, hcall, hrest, hin, hcloses, hfirst, -, rfl⟩ :=
    h.comesBack hst hroot hvisit
  have hopen := open_closes hin.rest
    (fun d hd => (List.pairwise_cons.1 h.order).1 _ (List.mem_map_of_mem hd)) hcloses.tree
  have hrec : w.recursions = recursionsOf w.net (c :: d :: l') := h.recursions
  obtain ⟨hto, hnot⟩ := henc.inside hcall.state hcall.going hfirst
  refine ⟨d, l', rfl, ⟨?_, (List.pairwise_cons.1 h.order).2, ?_, ?_, ?_⟩, ?_⟩
  all_goals rw [hcloses.rest]
  · exact hopen
  · exact hrest
  · rw [recursionsOf] at hrec
    show (if _ then w.recursions.tail else w.recursions) = _
    rw [hrec]
    split <;> rfl
  · exact hto.trans hcall.owner
  · exact entered_of_not_startsRule hnot

theorem Aligned.finish_closes (h : w.Aligned c l) (hroot : w.atRoot = .ok true)
    (hfinish : w.finishRoot = .ok w') :
    l = [] ∧ ∃ r v, w.Stands c [] r ∧ r.parent = none ∧
      w.Closes c.node r (w.net.isPrecedenceRule c.rule) v ∧
      w' = { v with finished := true } := by
  obtain ⟨r, hin⟩ := h.stands
  rw [atRoot_eq hin.toIn] at hroot
  have hinvoking : c.invoking = none := by
    rw [← hin.invoking]
    exact Option.isNone_iff_eq_none.1 (Except.ok.inj hroot)
  have hl : l = [] ∧ c.rule = w.startRule := by
    have hstack := h.stacked
    generalize hcl : c :: l = cl at hstack
    cases hstack with
    | root =>
      obtain ⟨rfl, rfl⟩ := List.cons.inj hcl
      exact ⟨rfl, rfl⟩
    | call =>
      obtain ⟨rfl, -⟩ := List.cons.inj hcl
      cases hinvoking
  obtain ⟨rfl, hrule⟩ := hl
  have hparent : r.parent = none := hin.rest.context_eq
  have htop : w.Tops r (w.net.isPrecedenceRule w.startRule) := fun hp => by
    rw [h.outer (hrule ▸ hp), hparent, hin.invoking]
    rfl
  obtain ⟨v, hcloses, rfl⟩ :=
    finishRoot_closes hin.toIn hin.below htop (hin.invoking.trans hinvoking) hfinish
  exact ⟨rfl, r, v, hin, hparent, hrule ▸ hcloses, rfl⟩

theorem Aligned.finishRoot (h : w.Aligned c l) (hroot : w.atRoot = .ok true)
    (hfinish : w.finishRoot = .ok w') : l = [] ∧ w'.context = none ∧ w'.net = w.net := by
  obtain ⟨rfl, r, v, -, hparent, hcloses, rfl⟩ := h.finish_closes hroot hfinish
  refine ⟨rfl, ?_⟩
  rw [hcloses.rest]
  exact ⟨hparent, rfl⟩

theorem aligned_enterRoot {net : Network} {tokens : Tokens} {rule : Nat} (hw : net.Wired)
    (henc : net.Enclosed) (h : ({ net, tokens } : Walker).enterRoot rule = .ok w) :
    w.Aligned ⟨0, rule, none⟩ [] ∧ w.entered ⟨0, rule, none⟩ [] = [] := by
  obtain ⟨start, tree, hstart, hset, -, rfl⟩ := enterRoot_eq_ok h
  obtain ⟨st, hst, hkind⟩ := hw.start hstart
  refine ⟨⟨.cons hset.node .nil, List.pairwise_singleton .., .root, ?_, henc.start hstart⟩,
    if_pos ?_⟩
  · rw [recursionsOf]
    rfl
  · show net.startsRule start = true
    rw [Network.startsRule, hst]
    exact hkind

end moves

end Walker

end GrammarWalk
