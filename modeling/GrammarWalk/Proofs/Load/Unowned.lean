import GrammarWalk.Proofs.Load.Choice
import GrammarWalk.Proofs.Load.Shown

/-! States of the invalid type. A stream gives them no rule, and a load leaves it at that. So in a
verified network a state with a rule and several edges takes no input. -/

namespace GrammarWalk

open Network Wire Reader

def StateKind.invalid? : StateKind → Option Unit
  | .invalid => some ()
  | _ => none

theorem StateKind.invalid?_eq_some {k : StateKind} : k.invalid? = some () ↔ k = .invalid := by
  cases k <;> simp [invalid?]

instance : StateKind.Steady StateKind.invalid? where
  basic := rfl
  blockStart _ _ _ := rfl
  blockEnd _ := rfl
  starLoopEntry _ _ _ _ := rfl
  mapDecision k _ := by cases k <;> rfl

namespace Network

variable {net net' : Network} {s : Nat} {st : State}

/-- States of the invalid type have no rule. -/
def InvalidUnowned (net : Network) : Prop :=
  ∀ s rule, net.shownAt StateKind.invalid? s = some ((), rule) → rule = none

theorem InvalidUnowned.of_shown (h : net.InvalidUnowned)
    (hshown : ∀ s, net'.shownAt StateKind.invalid? s = net.shownAt StateKind.invalid? s) :
    net'.InvalidUnowned :=
  fun s rule hs => h s rule ((hshown s).symm.trans hs)

theorem InvalidUnowned.kind_ne (h : net.InvalidUnowned) (hst : net.states[s]? = some st)
    (hrule : st.rule ≠ none) : st.kind ≠ .invalid :=
  fun hkind =>
    hrule (h s st.rule (shownAt_eq_some.2 ⟨st, hst, StateKind.invalid?_eq_some.2 hkind, rfl⟩))

end Network

namespace Wire

variable {net net' : Network} {c c' : Cursor}

theorem safeRead_readRow_rule : SafeRead readRow fun r => r.type = .invalid → r.rule = none := by
  refine safeRead_tagged.bind fun type _ => ?_
  by_cases htype : type = .invalid
  · rw [if_pos htype]
    exact safeRead_pure fun _ => rfl
  · rw [if_neg htype]
    refine (safeRead_word.bind fun _ _ => safeRead_pure trivial).bind (P := fun _ => True)
      fun rule _ => ?_
    exact safeRead_ite (safeRead_word.bind fun _ _ => safeRead_pure fun h => absurd h htype)
      (safeRead_pure fun h => absurd h htype)

theorem readStates_invalidUnowned (hn : readStates net c = .ok (net', c')) :
    net'.InvalidUnowned := by
  simp only [readStates, bind_reads, pure_reads] at hn
  obtain ⟨rows, _, hrows, -, -, -, -, -, -, rfl, -⟩ := hn
  intro s rule hs
  obtain ⟨st, hst, hkind, rfl⟩ := shownAt_eq_some.1 hs
  obtain ⟨r, hr, rfl⟩ := Option.map_eq_some_iff.1 (Array.getElem?_mapIdx.symm.trans hst)
  refine (safeRead_counted safeRead_readRow_rule c).keeps _ hrows r
    (by simpa using Array.mem_of_getElem? hr) ?_
  rw [StateKind.invalid?_eq_some] at hkind
  obtain ⟨type, _, _⟩ := r
  cases type <;> first | rfl | cases hkind

theorem decode_invalidUnowned {words : List Word} (hn : decode words = .ok net) :
    net.InvalidUnowned := by
  obtain ⟨s⟩ := decode_sections hn
  have states : s.states.InvalidUnowned := by
    obtain ⟨_, _, _, _, h⟩ := s.readStates
    exact readStates_invalidUnowned h
  exact states.of_shown fun x =>
    ((s.shown fun _ _ _ => rfl).shown x).trans (s.shown_linked (fun _ _ _ _ _ => rfl) x)

end Wire

theorem loadWords_invalidUnowned {words : List Word} {options : LoadOptions} {net : Network}
    (hload : loadWords words options = .ok net) : net.InvalidUnowned := by
  obtain ⟨decoded, hdecode, same⟩ := loadWords_shown (g := StateKind.invalid?) hload
  exact (decode_invalidUnowned hdecode).of_shown same.shown

theorem loadWords_silent {words : List Word} {options : LoadOptions} {net : Network} {s : Nat}
    {st : State} (hverify : options.verify = true) (hload : loadWords words options = .ok net)
    (hst : net.states[s]? = some st) (hrule : st.rule ≠ none) (hseveral : 1 < st.edges.length) :
    ∀ e ∈ st.edges, e.isSilent = true :=
  fun _ => (loadWords_checked hverify hload).isSilent_of_mem hst
    ((loadWords_invalidUnowned hload).kind_ne hst hrule)
    hseveral

end GrammarWalk
