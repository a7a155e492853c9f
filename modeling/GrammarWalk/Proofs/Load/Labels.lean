import GrammarWalk.Proofs.Load.Edges
import GrammarWalk.Proofs.Network.Labels

/-! No edge of a loaded network accepts the mark for the end of a rule. The symbols that a stream
can name are tokens and the end of input, and the tokens that stand for rules come after those of
the grammar. -/

namespace GrammarWalk

open Network Wire Reader

variable {net net' : Network} {c c' : Cursor}

namespace Wire

theorem ruleEnd_lt_symbol {a i : Nat} :
    Symbol.ruleEnd < if i = 0 then (a : Int) else Symbol.eof := by
  by_cases hi : i = 0
  · rw [if_pos hi]
    exact Int.lt_of_lt_of_le (by decide) (Int.natCast_nonneg a)
  · rw [if_neg hi]
    decide

theorem makeEdge_unmarked {sets : List SymbolSet} (hsets : ∀ set ∈ sets, Symbol.ruleEnd ∉ set)
    {kind : EdgeKind} {target a b i : Nat} {e : Edge}
    (he : makeEdge net sets kind target a b i c = .ok (e, c')) : e.Unmarked := by
  have setAt {set : SymbolSet} {c c' : Cursor} (hs : setAt sets a c = .ok (set, c')) :
      set ∈ sets := by
    rw [Wire.setAt] at hs
    cases hset : sets[a]? with
    | some found =>
      rw [hset] at hs
      exact (pure_reads.1 hs).1 ▸ List.mem_of_getElem? hset
    | none =>
      rw [hset] at hs
      exact (reject_reads.1 hs).elim
  cases kind <;> simp only [makeEdge, bind_reads, pure_reads] at he
  case atom =>
    obtain ⟨rfl, -⟩ := he
    exact Edge.unmarked_atom (Int.ne_of_gt ruleEnd_lt_symbol)
  case range =>
    obtain ⟨rfl, -⟩ := he
    exact Edge.unmarked_range ruleEnd_lt_symbol
  case set =>
    obtain ⟨set, _, hset, rfl, -⟩ := he
    exact Edge.unmarked_set (hsets set (setAt hset))
  case notSet =>
    obtain ⟨_, _, -, rfl, -⟩ := he
    exact Edge.unmarked_notSet
  case wildcard =>
    obtain ⟨rfl, -⟩ := he
    exact Edge.unmarked_wildcard
  case call =>
    obtain ⟨_, _, -, rfl, -⟩ := he
    exact Edge.unmarked_of_isSilent rfl
  all_goals
    obtain ⟨rfl, -⟩ := he
    exact Edge.unmarked_of_isSilent rfl

theorem named_unmarked {sets : List SymbolSet} (hsets : ∀ set ∈ sets, Symbol.ruleEnd ∉ set) :
    Named Edge.Unmarked sets where
  made := makeEdge_unmarked hsets
  epsilon _ _ := Edge.unmarked_of_isSilent rfl
  action _ _ _ _ := Edge.unmarked_of_isSilent rfl

end Wire

namespace Network

theorem Every.unmarked (h : net.Every Edge.Unmarked) (hd : net.Draft) : net.Unmarked :=
  ⟨fun hs => ⟨h.edges hs, fun es hes => by rw [hd.bare hs] at hes; cases hes⟩⟩

theorem Judged.unmarked {e e' : Edge} (h : Judged e e') (he : e.Unmarked) : e'.Unmarked := by
  obtain rfl | ⟨_, _, _, -, rfl⟩ := h
  · exact he
  · exact Edge.unmarked_of_isSilent rfl

theorem Unmarked.withTailCalls (h : net.Unmarked) (hn : net.withTailCalls = .ok net') :
    net'.Unmarked := by
  have judged {es es' : List Edge} (hes : List.Forall₂ Judged es es') (h : ∀ e ∈ es, e.Unmarked) :
      ∀ e ∈ es', e.Unmarked := fun e' he' => by
    obtain ⟨e, he, hj⟩ := exists_of_forall₂_right hes he'
    exact hj.unmarked (h e he)
  refine ⟨fun {s st'} hs => ?_⟩
  obtain ⟨st, hst, hj⟩ := judged_of_getElem? hn hs
  have hold := h.state hst
  refine ⟨judged hj.edges hold.edges, fun es' hes' => ?_⟩
  have ho := hj.optimized
  rw [hes'] at ho
  generalize hes : st.optimized = o at ho
  cases ho with
  | some hforall => exact judged hforall (hold.optimized _ hes)

end Network

theorem loadWords_unmarked {words : List Word} {options : LoadOptions}
    (hn : loadWords words options = .ok net) : net.Unmarked := by
  obtain ⟨decoded, bypassed, opt, hdecode, hbypass, hopt, -, htails⟩ := loadWords_eq_ok hn
  have hdecoded := decode_every hdecode fun _ => named_unmarked
  have hevery : bypassed.Every Edge.Unmarked := by
    obtain rfl | hbypass := hbypass
    · exact hdecoded
    · refine hdecoded.withBypasses (decode_keeps hdecode).1 (fun _ t h => h.retarget t)
        (fun _ => Edge.unmarked_plain)
        (fun t r => Edge.unmarked_atom ?_) hbypass
      have hend : Symbol.ruleEnd < 0 := by decide
      have hmax : 0 ≤ decoded.maxToken := decode_countsTokens hdecode
      rw [bypassToken]
      omega
  have hbypassed := hevery.unmarked (bypassed_keeps hdecode hbypass).1
  obtain ⟨-, rfl⟩ | ⟨-, changes, ho⟩ := hopt
  · exact hbypassed.withTailCalls htails
  · exact (hbypassed.optimize ho).withTailCalls htails

end GrammarWalk
