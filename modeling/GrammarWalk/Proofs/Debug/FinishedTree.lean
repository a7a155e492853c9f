import GrammarWalk.Proofs.Debug.Parses
import GrammarWalk.Proofs.Load.Conservative
import GrammarWalk.Proofs.Load.Marks
import GrammarWalk.Proofs.Parse.Growth

/-! The tree that a session comes to. Whatever the tokens, and however often the parse fails, its
nodes form a tree, and its leaves are the tokens that the parse has gone past. -/

namespace GrammarWalk

namespace Walker

variable {net : Network} {w w' : Walker}

/-- The invariant of a parse: its tree has grown in shape, and nothing is open after the end. -/
def Growing (w : Walker) : Prop :=
  if w.finished then w.Grown [] else ∃ p s, w.Stacks p s ∧ w.Grown (p :: s)

theorem growing_enterRoot (hw : net.Wired) (hseal : net.Sealed) (tokens : List Token) (rule : Nat)
    (w : Walker) (h : ({ net, tokens := .ofList tokens } : Walker).enterRoot rule = .ok w) :
    w.Growing := by
  obtain ⟨start, -, hstacks, hgrown, hfresh⟩ := grown_enterRoot hw hseal h
  rw [Growing, hfresh.finished, if_neg Bool.false_ne_true]
  exact ⟨_, _, hstacks, hgrown⟩

theorem growing_move (hw : w.net.Wired) (hseal : w.net.Sealed) (hmarks : w.net.MarksPrecedence)
    (hf : w.finished = false) (h : w.Growing) (hmove : w.Move w') : w'.Growing := by
  rw [Growing, hf, if_neg Bool.false_ne_true] at h
  obtain ⟨p, s, hst, hg⟩ := h
  have running (hf' : w'.finished = w.finished) (hs : ∃ p s, w'.Stacks p s ∧ w'.Grown (p :: s)) :
      w'.Growing := by
    rw [Growing, hf', hf, if_neg Bool.false_ne_true]
    exact hs
  cases hmove with
  | visit hs hns hvisit =>
    obtain ⟨p', s', hst', hgrows⟩ := hst.visit hw hseal hmarks hg.done hs hns hvisit
    exact running (continues_visit hvisit).finished
      ⟨p', s', hst', hg.grows (List.cons_ne_nil _ _) hgrows⟩
  | fail hs hns hvisit hfail =>
    exact running (continues_fail hfail).finished (hg.fail hw hst hvisit hfail)
  | leave hs hstop hroot hleave =>
    obtain ⟨q, s', rfl, hst', hgrows⟩ := hst.leave hseal hs hroot hleave
    exact running (continues_visitStop hleave).finished
      ⟨_, s', hst', hg.grows (List.cons_ne_nil _ _) hgrows⟩
  | finish hs hstop hroot hfinish =>
    obtain ⟨rfl, hgrows⟩ := hst.finish hroot hfinish
    rw [Growing, finished_finishRoot hfinish, if_pos rfl]
    exact hg.grows (List.cons_ne_nil _ _) hgrows

end Walker

namespace Session

/-- When a parse over a loaded network with sealed rules has come to its end, the nodes of the tree
form a tree, and its leaves, but for ends of input, are the tokens on the default channel before the
cursor, in order. -/
theorem tree_of_finished {words : List Wire.Word} {options : LoadOptions} {net : Network}
    {s : Session} {w : Walker} (hload : loadWords words options = .ok net) (hseal : net.Sealed)
    (hs : s.Begins net) (asks : List Ask) (hw : (asks.foldl answer s).walker = some w)
    (hf : w.finished = true) :
    ∃ root leaves, w.tree.IsTree root ∧ w.tree.Yields [root] leaves ∧
      leaves.filter (fun i => !(w.tokens.get i).isEnd) = w.tokens.readBefore := by
  have hwired := (loadWords_wired hload).1
  have hmarks := loadWords_marks hload
  have hgrowing : w.Growing := by
    refine answers_keep (P := Walker.Growing) (Walker.growing_enterRoot hwired hseal) ?_ hs asks hw
    rintro v v' rfl hv hgrow hmove
    exact Walker.growing_move hwired hseal hmarks hv hgrow hmove
  rw [Walker.Growing, hf, if_pos rfl] at hgrowing
  obtain ⟨root, htree⟩ := hgrowing.shaped.isTree
  obtain ⟨leaves, hfrontier, hleaves⟩ := hgrowing.passed
  cases hfrontier with
  | ended hroot hyields =>
    obtain rfl := Option.some.inj (hroot.symm.trans htree.top.1)
    exact ⟨_, leaves, htree, hyields, hleaves⟩

/-- In a text of three letters the second is a sign, so that the sum takes the place of its first
part in the tree. -/
theorem tree_of_finished_threeLetters :
    loadWords (sumsOf 1) { optimize := false } = .ok (loaded (sumsOf 1)) ∧
    (loaded (sumsOf 1)).Sealed ∧ (sessionOver (sumsOf 1)).Begins (loaded (sumsOf 1)) ∧
    ∃ w, ([.start 1 "aaa", .resume .normal].foldl answer (sessionOver (sumsOf 1))).walker = some w ∧
      w.finished = true ∧ w.tree.parentOf 1 = some 3 ∧ w.tokens.readBefore = [0, 1, 2] ∧
      ∃ root leaves, w.tree.IsTree root ∧ w.tree.Yields [root] leaves ∧
        leaves.filter (fun i => !(w.tokens.get i).isEnd) = w.tokens.readBefore := by
  have hload : loadWords (sumsOf 1) { optimize := false } = .ok (loaded (sumsOf 1)) :=
    loadWords_loaded (by decide +kernel)
  have hseal : (loaded (sumsOf 1)).Sealed := by decide +kernel
  have hbegins := begins_sessionOver (sumsOf 1)
  have h := answers_of_any 60 (sessionOver (sumsOf 1)) [.start 1 "aaa", .resume .normal]
    (fun t => t.walker.any fun w => w.finished && w.tree.parentOf 1 == some 3 &&
      w.tokens.readBefore == [0, 1, 2])
    (by decide +kernel)
  simp only [Option.any_eq_true, Bool.and_eq_true, beq_iff_eq] at h
  obtain ⟨w, hw, ⟨hf, hparent⟩, hread⟩ := h
  exact ⟨hload, hseal, hbegins, w, hw, hf, hparent, hread,
    tree_of_finished hload hseal hbegins _ hw hf⟩

end Session

namespace Wire

/-- The words of a parser's network in which some rules, by their starts, are precedence rules. -/
def precedenceWords (states : List (List Word)) (precedence rules : List Word)
    (edges : List (List Word)) : List Word :=
  let counted (n : Nat) (words : List Word) := UInt16.ofNat n :: words
  shiftWords <| [3] ++ toWords identifierWords Version.newest.identifier ++ [1, 3] ++
    counted states.length states.flatten ++ [0] ++ counted precedence.length precedence ++
    counted rules.length rules ++ [0, 0, 0] ++ counted edges.length edges.flatten ++ [0]

/-- The call in state 6 goes on in the precedence rule that it calls. -/
def strayPrecedence : List Word :=
  precedenceWords [[2, 0], [7, 0], [1, 0], [1, 0], [2, 1], [7, 1], [1, 1], [1, 1], [2, 2],
    [7, 2], [1, 2]] [8]
    [0, 4, 8] [eps 0 2, callOf 2 3 4 1, eps 3 1, eps 4 6, callOf 6 10 8 2, eps 7 5,
      eps 8 9, eps 10 9]

end Wire

namespace Session

open Wire in
/-- Behind a call that goes on in a precedence rule, the rule is left once more in place of the one
that called it, whose node then has no parent any more. -/
theorem tree_torn :
    loadWords strayPrecedence { optimize := false } = .ok (loaded strayPrecedence) ∧
    (loaded strayPrecedence).Partitioned ∧
    (sessionOver strayPrecedence).Begins (loaded strayPrecedence) ∧
    ∃ w, ([.start 0 "", .resume .normal].foldl answer (sessionOver strayPrecedence)).walker =
    some w ∧
      w.finished = true ∧ ¬ ∃ root, w.tree.IsTree root := by
  refine ⟨loadWords_loaded (by decide +kernel), by decide +kernel, begins_sessionOver _, ?_⟩
  have h := answers_of_any 30 (sessionOver strayPrecedence) [.start 0 "", .resume .normal]
    (fun t => t.walker.any fun w => w.finished && w.tree.root == some 0 &&
      w.tree.nodes[1]?.any (·.parent?.isNone))
    (by decide +kernel)
  simp only [Option.any_eq_true, Bool.and_eq_true, beq_iff_eq] at h
  obtain ⟨w, hw, ⟨hf, hroot⟩, n, hn, hnone⟩ := h
  refine ⟨w, hw, hf, ?_⟩
  rintro ⟨root, htree⟩
  obtain rfl := Option.some.inj (hroot.symm.trans htree.top.1)
  obtain ⟨p, r, hparent, -, -⟩ := htree.listed ⟨n, hn⟩ Nat.one_ne_zero
  rw [Tree.parentOf, hn, Option.bind_some] at hparent
  rw [hparent] at hnone
  cases hnone

end Session

end GrammarWalk
