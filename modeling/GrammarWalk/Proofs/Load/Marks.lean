import GrammarWalk.Proofs.Load.Shown
import GrammarWalk.Proofs.Network.Sealed

/-! Which loops are marked for precedence. A load marks the entry of a loop only if the loop belongs
to a precedence rule, and nothing that it does afterwards changes a mark. -/

namespace GrammarWalk

open Network Wire Reader

theorem StateKind.mark?_eq_starLoopEntry {k : StateKind} :
    k.mark? = some .starLoopEntry ↔ ∃ d loopback, k = .starLoopEntry d loopback true := by
  rcases k with _ | _ | ⟨_, _ | _, _⟩ | _ | _ | _ | _ | _ | _ | ⟨_, _, _ | _⟩ | _ <;>
    simp [StateKind.mark?]

namespace Network

variable {net net' : Network} {s : Nat}

theorem isPrecedenceRule_eq {r : Nat} :
    net.isPrecedenceRule r = (net.ruleStarts[r]?.bind (net.shownAt StateKind.mark?)).any
      (·.1 == .ruleStart) := by
  simp only [isPrecedenceRule, ruleStart?, Option.bind_eq_bind]
  cases net.ruleStarts[r]? with
  | none => rfl
  | some start =>
    rw [Option.bind_some, Option.bind_some, shownAt]
    cases net.states[start]? with
    | none => rfl
    | some st =>
      rw [Option.bind_some, Option.any_some]
      rcases st.kind with _ | _ | ⟨_, _ | _, _⟩ | _ | _ | _ | _ | _ | _ | ⟨_, _, _ | _⟩ | _ <;> rfl

instance : StateKind.Steady StateKind.mark? where
  basic := rfl
  blockStart _ _ _ := rfl
  blockEnd _ := rfl
  starLoopEntry _ _ _ p := by cases p <;> rfl
  mapDecision _ _ := StateKind.mark?_mapDecision

/-- The states of `net` have the same marks in `net'`, and no others are marked. -/
abbrev SameMarks (net net' : Network) : Prop := SameShown StateKind.mark? net net'

namespace SameShown

theorem isPrecedenceRule_eq (h : SameMarks net net') :
    net'.isPrecedenceRule = net.isPrecedenceRule := by
  funext r
  rw [Network.isPrecedenceRule_eq, Network.isPrecedenceRule_eq, h.starts, funext h.shown]

theorem marksPrecedence (h : SameMarks net net') (hm : net.MarksPrecedence) :
    net'.MarksPrecedence := by
  intro s st d loopback hs hk
  have hmark : net.shownAt StateKind.mark? s = some (.starLoopEntry, st.rule) := by
    rw [← h.shown, shownAt_of_getElem? hs, hk]
    rfl
  obtain ⟨old, hold, hkind, hrule⟩ := shownAt_eq_some.1 hmark
  obtain ⟨d', loopback', hold'⟩ := StateKind.mark?_eq_starLoopEntry.1 hkind
  rw [h.isPrecedenceRule_eq, ← hrule]
  exact hm _ _ _ _ hold hold'

end SameShown

theorem Unlinked.marksPrecedence (h : net.Unlinked) : net.MarksPrecedence := by
  intro s st d loopback hs hk
  refine absurd ?_ (h.kind hs).mark
  rw [hk]
  rfl

theorem MarksPrecedence.markPrecedence (hm : net.MarksPrecedence)
    (hn : net.markPrecedence s = .ok net') : net'.MarksPrecedence := by
  obtain rfl | ⟨st, d, loopback, p, hst, hk, hrule, rfl⟩ := markPrecedence_cases hn
  · exact hm
  intro t st' d' loopback' ht hk'
  have hrules :
      (net.modify s fun st => { st with kind := .starLoopEntry d loopback true }).isPrecedenceRule =
      net.isPrecedenceRule := by
    funext r
    rw [isPrecedenceRule_eq, isPrecedenceRule_eq]
    show (net.ruleStarts[r]?.bind _).any _ = _
    cases net.ruleStarts[r]? with
    | none => rfl
    | some start =>
      rw [Option.bind_some, Option.bind_some, shownAt, shownAt, getElem?_modify]
      split
      · subst s
        rw [hst, Option.map_some, Option.bind_some, Option.bind_some, hk]
        cases p <;> rfl
      · rfl
  rw [hrules]
  rw [getElem?_modify] at ht
  split at ht
  · subst s
    rw [hst] at ht
    obtain rfl := Option.some.inj ht
    exact hrule
  · exact hm _ _ _ _ ht hk'

theorem MarksPrecedence.markPrecedences (hm : net.MarksPrecedence)
    (hn : net.markPrecedences = .ok net') : net'.MarksPrecedence :=
  foldlM_keeps (P := MarksPrecedence) (fun _ _ _ _ hm hs => hm.markPrecedence hs) hm hn

end Network

namespace Wire

variable {net : Network}

theorem decode_marks {words : List Word} (hn : decode words = .ok net) : net.MarksPrecedence := by
  obtain ⟨s⟩ := decode_sections hn
  have returns := s.returns_unlinked
  have blocks := (SameShown.linkBlocks s.linkBlocks).marksPrecedence returns.marksPrecedence
  have loops := (SameShown.linkLoops s.linkLoops).marksPrecedence blocks
  have decisions := s.readDecisions.keeps (P := MarksPrecedence)
    (fun _ _ _ _ hm hn => (readDecision_shown hn).marksPrecedence hm) loops
  have commands : s.commands.MarksPrecedence := by
    obtain ⟨_, _, h⟩ := s.readCommands
    exact (readCommands_shown h).marksPrecedence decisions
  exact commands.markPrecedences s.markPrecedences

end Wire

theorem loadWords_marks {words : List Wire.Word} {options : LoadOptions} {net : Network}
    (hn : loadWords words options = .ok net) : net.MarksPrecedence := by
  obtain ⟨decoded, hdecode, same⟩ := loadWords_shown (g := StateKind.mark?) hn
  exact same.marksPrecedence (Wire.decode_marks hdecode)

end GrammarWalk
