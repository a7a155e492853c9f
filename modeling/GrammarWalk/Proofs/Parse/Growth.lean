import GrammarWalk.Proofs.Parse.Shape

/-! The tree of a parse from its start on: a parse begins with the root alone, and all that it does
to the tree, failures included, lets the tree grow in shape. -/

namespace GrammarWalk.Walker

open GrammarWalk.Tree (Grows)

variable {net : Network} {w w' : Walker} {p : Part} {s s' : List Part}

/-- The tree of a parse with open parts `s`. -/
structure Grown (w : Walker) (s : List Part) : Prop where
  shaped : w.tree.Shaped s
  roots : w.tree.Roots s
  passed : w.tree.Passed s w.tokens
  ready : w.tokens.Ready

theorem Grown.grows (h : w.Grown s) (hs : s ≠ [])
    (hg : Grows net w.tree w.tokens s w'.tree w'.tokens s') : w'.Grown s' := by
  obtain ⟨hpassed, hready⟩ := h.passed.grows h.shaped h.roots hs h.ready hg
  exact ⟨h.shaped.grows hs h.roots hg, hg.roots h.roots, hpassed, hready⟩

/-- The parse has just begun, with state `start` of its outermost rule. -/
structure Fresh (w : Walker) (start : Nat) : Prop where
  state : w.state = start
  alone : ∀ x, ¬ w.tree.Settled [{ node := 0, rule := w.startRule, invoking := none, done := [] }] x
  failures : w.failures = []
  finished : w.finished = false

theorem grown_enterRoot {tokens : List Token} {rule : Nat} (hw : net.Wired) (hseal : net.Sealed)
    (h : ({ net, tokens := .ofList tokens } : Walker).enterRoot rule = .ok w) :
    ∃ start, w.net.ruleStarts[w.startRule]? = some start ∧
      w.Stacks { node := 0, rule := w.startRule, invoking := none, done := [] } [] ∧
      w.Grown [{ node := 0, rule := w.startRule, invoking := none, done := [] }] ∧
      w.Fresh start := by
  have ha := (aligned_enterRoot hw hseal.enclosed h).1
  obtain ⟨start, tree, hstart, hset, hroot, rfl⟩ := enterRoot_eq_ok h
  let p : Part := { node := 0, rule, invoking := none, done := [] }
  have hparts : tree.Parts net [] [p] := .cons hset.node rfl rfl rfl rfl .nil
  have hnone {x : Nat} (hx : x ≠ 0) : tree.nodes[x]? = none := hset.other x hx
  have hunsettled (x : Nat) : ¬ tree.Settled [p] x := by
    intro hx
    obtain ⟨n, hn⟩ := hx.there
    have hne : x ≠ 0 := fun h0 => hx.shut (h0 ▸ List.mem_cons_self)
    rw [hnone hne] at hn
    cases hn
  have hshaped : tree.Shaped [p] := by
    refine ⟨fun {q xs} ho => ?_, fun hx => (hunsettled _ hx).elim,
      fun hx => (hunsettled _ hx).elim, nofun⟩
    cases ho with
    | opened hq =>
      obtain rfl := List.mem_singleton.1 hq
      exact ⟨List.nodup_nil, nofun⟩
    | settled hx hr => exact (hunsettled _ ⟨⟨_, hr⟩, hx⟩).elim
  have hpassed : tree.Passed [p] (.ofList tokens) :=
    ⟨[], .root .nil, (Tokens.readBefore_ofList tokens).symm⟩
  exact ⟨start, hstart, ha.stacks hparts rfl,
    ⟨hshaped, fun _ => hroot, hpassed, Tokens.ready_ofList tokens⟩, rfl, hunsettled, rfl, rfl⟩

theorem Grown.done (h : w.Grown (p :: s)) : ∀ q ∈ s, p.node ∉ q.done := fun _ hq hmem =>
  ((h.shaped.listed (.opened (List.mem_cons_of_mem _ hq))).2 p.node hmem).1.shut List.mem_cons_self

theorem Grown.fail (hw : w.net.Wired) {f : Failure} (hst : w.Stacks p s) (h : w.Grown (p :: s))
    (hvisit : w.visit = .ok (.error f)) (hfail : w.fail f = .ok w') :
    ∃ p s, w'.Stacks p s ∧ w'.Grown (p :: s) := by
  obtain ⟨r, hin⟩ := hst.aligned.stands
  refine fail_induction (P := fun v => ∃ p s, v.Stacks p s ∧
    v.Grown (p :: s)) hin.toIn hfail ?_ ?_ ?_
  · intro st stop tree hs hstop hset hroot
    rw [(failsHere_of_visit hvisit).1] at hs
    have hg := @Tree.grows_note _ _ _ _ _ _ w.tokens hst.parts hst.nodup hin.node _ hset hroot
      ⟨rfl, rfl, rfl, rfl⟩
    have hstacks : { w with tree, state := stop, failures := w.failures ++ [f] }.Stacks p s :=
      (hst.aligned.note hw hin.toIn hs rfl hstop hset ⟨rfl, rfl, rfl⟩).1.stacks hg.parts hst.context
    exact ⟨p, s, hstacks, h.grows (List.cons_ne_nil _ _) hg⟩
  · rintro v index states ⟨q, l, ⟨ha, hparts⟩, hv⟩
    exact ⟨q, l, ⟨⟨ha.tree, ha.order, ha.stacked, ha.recursions, ha.state⟩, hparts⟩,
      hv.shaped, hv.roots, hv.passed, hv.ready⟩
  · rintro v v' ⟨q, l, hstacks, hv⟩ hskip
    obtain ⟨q', hstacks', hg⟩ := hstacks.skipToken hskip
    exact ⟨q', l, hstacks', hv.grows (List.cons_ne_nil _ _) hg⟩

end GrammarWalk.Walker
