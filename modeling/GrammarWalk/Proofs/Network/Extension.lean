import GrammarWalk.Proofs.Network.SameRuns

/-! What all rewrites of a network keep about the network they began with: the raw lists stay, from
each of its states at least as much is seen as over the raw lists, and a rule that neither matches
nor calls is entered at its start only. -/

namespace GrammarWalk.Network

/-- No state of the rule before its stop matches a symbol or calls a rule. -/
def Mute (net : Network) (r : Nat) : Prop :=
  ∀ {s : Nat} {st : State}, net.states[s]? = some st → st.rule = some r → st.isRuleStop = false →
    ∀ e ∈ st.edges, e.matchesOrCalls = false

def CallsEnterRules (net : Network) : Prop :=
  ∀ {s : Nat} {st : State} {c : Call}, net.states[s]? = some st → .call c ∈ st.edges →
    net.ruleStarts[c.rule]? = some c.start

def ReachedFromStarts (net : Network) : Prop :=
  ∀ {s : Nat} {st : State} {r : Nat}, net.states[s]? = some st → st.rule = some r →
    ∃ start, net.ruleStarts[r]? = some start ∧ net.Leads State.edges start s

/--
Along the lists `view`, a rule that neither matches nor calls in `base` is entered from outside only
at its start and without a call: no other edge leads onward into it.
-/
def EntersMuteAtStart (base net : Network) (view : State → List Edge) : Prop :=
  ∀ {r : Nat}, base.Mute r → ∀ {s : Nat} {st : State} {e : Edge}, net.states[s]? = some st →
    e ∈ view st → net.ownerOf e.onward = some r →
    e.isSilent = true ∧ e.call? = none ∧ (st.rule = some r ∨ net.ruleStarts[r]? = some e.target)

/-- `net` is `base` after some rewrites. -/
structure Extends (base net : Network) : Prop extends SameRaw base net where
  wired : net.Wired
  size : base.states.size ≤ net.states.size
  sees : ∀ {s : Nat} {o : Option Nat}, s < base.states.size → base.Sees State.edges s o →
    net.Sees State.followed s o
  calls : ∀ {s : Nat} {st : State} {c : Call}, net.states[s]? = some st → .call c ∈ st.followed →
    ∃ (t : Nat) (raw : State), base.states[t]? = some raw ∧ .call c ∈ raw.edges
  stops : net.StopsSilent
  enters : EntersMuteAtStart base net State.followed

variable {free : Call → Edge → Prop} {base net net' : Network} {s t : Nat} {st : State}
  {es' : List Edge}
  {o : Option Nat}

section sees

variable (g : Grows net net' s st es')
include g

theorem Grows.sees_of_splices {e : Edge} {mid : State} (hm : net.Splices s e mid)
    (hes : ∀ hop ∈ mid.followed, .plain hop.target ∈ es') (hns : st.isRuleStop = false)
    (hsees : net'.Sees State.followed e.target o) : net'.Sees State.followed s o := by
  rcases hsees.first (g.kept hm.state hm.other) hm.not_stop with ⟨-, hop, hh,
    hmatch⟩ | ⟨hop, hh, hsees⟩
  · rw [Edge.eq_plain (hm.hops hop hh)] at hmatch
    cases hmatch
  · rw [Edge.onward_of_isPlain (hm.hops hop hh)] at hsees
    exact .onward g.changed hns (hes hop hh) hsees

/-- Through a new state its match is seen, and all that is seen from where the match leads. -/
theorem Grows.sees_of_matching {fresh : Nat} {r : Option Nat} {m : Edge}
    (hfresh : net'.states[fresh]? = some (.matching fresh r m)) (hm : m.isLabelled = true)
    (hjoin : .plain fresh ∈ es') (hns : st.isRuleStop = false)
    (ho : o = none ∨ net'.Sees State.followed m.target o) : net'.Sees State.followed s o := by
  obtain ⟨-, hcall, hmatch⟩ := Edge.of_isLabelled hm
  refine .onward g.changed hns hjoin ?_
  rcases ho with rfl | ho
  · exact .input hfresh rfl (List.mem_singleton.2 rfl) hmatch
  · refine .onward hfresh rfl (List.mem_singleton.2 rfl) ?_
    rw [Edge.onward_of_call?_eq_none hcall]
    exact ho

theorem Grows.sees_of_branch (hsil : net.StopsSilent) {e b m : Edge} {fresh : Nat}
    (hb : net.Branch e b) (htarget : b.target = m.target) (hm : m.isLabelled = true)
    {r : Option Nat} (hfresh : net'.states[fresh]? = some (.matching fresh r m))
    (hjoin : .plain fresh ∈ es') (he : e ∈ st.followed) (hns : st.isRuleStop = false)
    (hsees : net'.Sees State.followed e.target o) : net'.Sees State.followed s o := by
  obtain ⟨bst, hbst, hbns, hbf⟩ := hb.not_stop hsil
  refine g.sees_of_matching hfresh hm hjoin hns ?_
  rcases hsees.first (g.kept hbst (g.branch_ne hb he)) hbns with ⟨rfl, -⟩ | ⟨e', he', hsees⟩
  · exact .inl rfl
  · rw [hbf, List.mem_singleton] at he'
    subst he'
    rw [Edge.onward_of_call?_eq_none (Edge.of_isLabelled hb.labelled).2.1, htarget] at hsees
    exact .inr hsees

end sees

theorem Branch.onward_eq {e b : Edge} (hb : net.Branch e b) : e.onward = e.target := by
  have := hb.epsilon
  cases e <;> simp_all [Edge.isEpsilon, Edge.onward, Edge.target]

theorem Grows.sees_of_replaced (g : Grows net net' s st es') {i j : Nat}
    (hr : Replaced free net net' s i j st.followed es') (hns : st.isRuleStop = false) {e : Edge}
    (he : e ∈ st.followed)
    (h : o = none ∧ e.matchesOrCalls = true ∨ net'.Sees State.followed e.onward o) :
    net'.Sees State.followed s o := by
  rcases hr.of_mem he with he' | ⟨mid, hmid, hes⟩ | ⟨c, fresh, m, rfl, hi, hjoin⟩
  · rcases h with ⟨rfl, hm⟩ | hsees
    · exact .input g.changed hns he' hm
    · exact .onward g.changed hns he' hsees
  · rcases h with ⟨-, hm⟩ | hsees
    · rw [Edge.eq_plain hmid.plain] at hm
      cases hm
    · rw [Edge.onward_of_isPlain hmid.plain] at hsees
      exact g.sees_of_splices hmid hes hns hsees
  · refine g.sees_of_matching hi.state (isLabelled_retarget m _ ▸ hi.labelled) hjoin hns
      (h.imp And.left fun hsees => ?_)
    rw [Edge.target_retarget]
    exact hsees

theorem Grows.sees_replaced {x i j : Nat} (g : Grows net net' s st es')
    (hr : Replaced free net net' s i j st.followed es') (hsees : net.Sees State.followed x o) :
    net'.Sees State.followed x o := by
  induction hsees with
  | stop hx ht =>
    obtain ⟨l, hx'⟩ := g.old hx
    exact .stop hx' ht
  | @input x xst e hx ht he hm =>
    by_cases heq : x = s
    · subst heq
      obtain rfl := Option.some.inj (hx.symm.trans g.state)
      exact g.sees_of_replaced hr ht he (.inl ⟨rfl, hm⟩)
    · exact .input (g.kept hx heq) ht he hm
  | @onward x xst e o hx ht he _ ih =>
    by_cases heq : x = s
    · subst heq
      obtain rfl := Option.some.inj (hx.symm.trans g.state)
      exact g.sees_of_replaced hr ht he (.inr ih)
    · exact .onward (g.kept hx heq) ht he ih

theorem Grows.sees_merged {x fresh : Nat} {m : Edge} (g : Grows net net' s st es')
    (hmerge : Merged net net' s st.followed es' fresh m) (hstops : net.StopsSilent)
    (hsees : net.Sees State.followed x o) : net'.Sees State.followed x o := by
  induction hsees with
  | stop hx ht =>
    obtain ⟨l, hx'⟩ := g.old hx
    exact .stop hx' ht
  | @input x xst e hx ht he hm =>
    by_cases heq : x = s
    · subst heq
      obtain rfl := Option.some.inj (hx.symm.trans g.state)
      rcases hmerge.of_mem he with he' | ⟨b, hb, -⟩
      · exact .input g.changed ht he' hm
      · have := hb.epsilon
        cases e <;> simp_all [Edge.isEpsilon, Edge.matchesOrCalls]
    · exact .input (g.kept hx heq) ht he hm
  | @onward x xst e o hx ht he _ ih =>
    by_cases heq : x = s
    · subst heq
      obtain rfl := Option.some.inj (hx.symm.trans g.state)
      rcases hmerge.of_mem he with he' | ⟨b, hb, htarget, -⟩
      · exact .onward g.changed ht he' ih
      · rw [hb.onward_eq] at ih
        exact g.sees_of_branch hstops hb htarget hmerge.labelled hmerge.state hmerge.joined he ht ih
    · exact .onward (g.kept hx heq) ht he ih

theorem Rewrite.sees (h : Rewrite free net net') (hstops : net.StopsSilent)
    (hsees : net.Sees State.followed s o) :
    net'.Sees State.followed s o := by
  obtain ⟨x, xst, es', g, ⟨_, _, hr⟩ | ⟨fresh, m, hmerge⟩⟩ := h.grows
  · exact g.sees_replaced hr hsees
  · exact g.sees_merged hmerge hstops hsees

/-- A state of the rewritten network: its followed edges are old ones of its own, or all are new. -/
theorem Grows.followed_cases (g : Grows net net' s st es')
    (hnew : (∃ i j, Replaced free net net' s i j st.followed es') ∨
      ∃ fresh m, Merged net net' s st.followed es' fresh m)
    {x : Nat} {xst : State} (hx : net'.states[x]? = some xst) {e : Edge} (he : e ∈ xst.followed) :
    (∃ old : State, net.states[x]? = some old ∧ old.rule = xst.rule ∧
      old.isRuleStop = xst.isRuleStop ∧ (e ∈ old.followed ∨
        (∃ f ∈ old.followed, ∃ mid, net.Splices x f mid ∧
          ∃ hop ∈ mid.followed, e = .plain hop.target) ∨
        ∃ fresh, e = .plain fresh ∧ net.states.size ≤ fresh ∧ fresh < net'.states.size ∧ x = s)) ∨
    (net.states.size ≤ x ∧ xst.isRuleStop = false ∧ e.isLabelled = true ∧
    net.Follows e.target) := by
  by_cases hlt : x < net.states.size
  · left
    rcases g.cases hx hlt with ⟨rfl, rfl⟩ | ⟨-, hold⟩
    · refine ⟨st, g.state, rfl, rfl, ?_⟩
      rcases mem_rewritten hnew he with he | hs | ⟨fresh, hf, hlo, hhi⟩
      · exact .inl he
      · exact .inr (.inl hs)
      · exact .inr (.inr ⟨fresh, hf, hlo, hhi, rfl⟩)
    · exact ⟨xst, hold, rfl, rfl, .inl he⟩
  · obtain ⟨m, r, rfl, hm, hf, -⟩ := g.new hx (Nat.not_lt.1 hlt)
    obtain rfl := List.mem_singleton.1 he
    exact .inr ⟨Nat.not_lt.1 hlt, rfl, hm, hf⟩

theorem Wired.basic_ne_start (hw : net.Wired) {r : Nat} {mid : State}
    (hs : net.states[s]? = some mid) (hk : mid.kind = .basic) : net.ruleStarts[r]? ≠ some s := by
  intro hr
  obtain ⟨st, hst, ht⟩ := hw.start hr
  obtain rfl := Option.some.inj (hs.symm.trans hst)
  rw [State.isRuleStart, hk] at ht
  cases ht

theorem Extends.rewrite_enters (h : Extends base net) (hr : Rewrite free net net') :
    EntersMuteAtStart base net' State.followed := by
  intro r hmute x xst e hx he hown
  obtain ⟨s, st, es', g, hnew⟩ := hr.grows
  have owner {t : Nat} (ht : t < net.states.size) : net'.ownerOf t = net.ownerOf t :=
    g.ownerOf_eq (Array.getElem?_eq_getElem ht)
  have not_follows {t : Nat} (hf : net.Follows t) : net.ownerOf t ≠ some r := by
    intro ho
    obtain ⟨y, yst, hy, f, hf, hmatch, rfl⟩ := hf
    obtain ⟨hsil, hcall, -⟩ := h.enters hmute hy hf ho
    cases f <;> simp_all [Edge.isSilent, Edge.call?, Edge.matchesOrCalls]
  rw [g.ruleStarts_eq]
  rcases g.followed_cases hnew hx he with ⟨old, hold, hrule, -, hcases⟩ | ⟨-, -, hl, hf⟩
  · rw [← hrule]
    rcases hcases with he | ⟨f, hf, mid, hmid, hop, hhop, rfl⟩ | ⟨fresh, rfl, hlo, hhi, rfl⟩
    · exact h.enters hmute hold he (owner (h.wired.onward_lt hold he) ▸ hown)
    · have hown' : net.ownerOf hop.onward = some r := by
        rw [← owner (h.wired.onward_lt hmid.state hhop),
          Edge.onward_of_isPlain (hmid.hops hop hhop)]
        exact hown
      obtain ⟨-, -, hin⟩ := h.enters hmute hmid.state hhop hown'
      refine ⟨rfl, rfl, ?_⟩
      rcases hin with hin | hin
      · have hfown : net.ownerOf f.onward = some r := by
          rw [Edge.onward_of_isPlain hmid.plain, ownerOf_eq hmid.state, hin]
        obtain ⟨-, -, hin⟩ := h.enters hmute hold hf hfown
        exact hin.imp_right fun hstart =>
          absurd hstart (h.wired.basic_ne_start hmid.state hmid.basic)
      · exact .inr hin
    · refine ⟨rfl, rfl, .inl ?_⟩
      obtain ⟨m, r', hfresh, -, hfollows, hr'⟩ :=
        g.new (Array.getElem?_eq_getElem hhi) hlo
      rw [Edge.onward_of_call?_eq_none rfl] at hown
      have : r' = some r := by
        rw [← hown]
        show r' = net'.ownerOf fresh
        rw [ownerOf_eq (Array.getElem?_eq_getElem hhi), hfresh]
        rfl
      obtain rfl := Option.some.inj (hold.symm.trans g.state)
      rcases hr' with hr' | hr'
      · exact absurd (hr'.symm.trans this) (not_follows hfollows)
      · exact hr'.2.symm.trans this
  · rw [Edge.onward_of_call?_eq_none (Edge.of_isLabelled hl).2.1,
      owner (h.wired.lt_of_follows hf)] at hown
    exact absurd hown (not_follows hf)

theorem Extends.rewrite (h : Extends base net) (hr : Rewrite free net net') :
    Extends base net' := by
  obtain ⟨s, st, es', g, hnew⟩ := hr.grows
  refine ⟨h.toSameRaw.rewrite hr, hr.wired h.wired,
    Nat.le_trans h.size g.size, fun hs ho => hr.sees h.stops (h.sees hs ho), fun {x xst c} hx hc =>
    ?_, fun {x xst} hx ht e he => ?_, h.rewrite_enters hr⟩
  · rcases g.followed_cases hnew hx hc with ⟨old, hold, -, -, hcases⟩ | ⟨-, -, hl, -⟩
    · rcases hcases with he | ⟨_, _, _, _, _, _, h⟩ | ⟨_, h, -⟩
      · exact h.calls hold he
      · exact nomatch h
      · exact nomatch h
    · exact nomatch hl
  · rcases g.followed_cases hnew hx he with ⟨old, hold, -, hstop, hcases⟩ | ⟨-, hns, -⟩
    · rcases hcases with he | ⟨_, _, _, _, _, _, rfl⟩ | ⟨_, rfl, -⟩
      · exact h.stops hold (hstop.trans ht) e he
      · rfl
      · rfl
    · rw [hns] at ht
      exact nomatch ht

end GrammarWalk.Network
