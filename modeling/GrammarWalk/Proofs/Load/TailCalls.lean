import GrammarWalk.Proofs.Load.Followed
import GrammarWalk.Proofs.Load.Language
import GrammarWalk.Proofs.Network.TailCalls

/-! The flags of tail calls in a loaded network say what they are to say, and the two flags of a
call are the same, unless a rule stop matches something. -/

namespace GrammarWalk

open Network Wire

namespace Network

variable {net net' : Network} {view : State → List Edge} {s : Nat} {st st' : State}
  {e e' : Edge} {c : Call}

theorem Judged.isEpsilon_eq (h : Judged e e') : e'.isEpsilon = e.isEpsilon := by
  obtain rfl | ⟨c, tail, optimizedTail, rfl, rfl⟩ := h <;> rfl

theorem JudgedState.quietInto_iff {S : Nat → Prop} (h : JudgedState st st')
    (hview : List.Forall₂ Judged (view st) (view st')) :
    st'.QuietInto view S ↔ st.QuietInto view S := by
  have hstop : st'.isRuleStop = st.isRuleStop := by rw [h.rest]; rfl
  have hempty : view st' ≠ [] ↔ view st ≠ [] := by
    rw [← List.length_pos_iff, ← List.length_pos_iff, hview.length_eq]
  have hall : (∀ e ∈ view st', e.isEpsilon = true ∧ S e.target) ↔
      ∀ e ∈ view st, e.isEpsilon = true ∧ S e.target := by
    constructor
    · intro hall e he
      obtain ⟨e', he', hj⟩ := exists_of_forall₂_left hview he
      rw [← hj.isEpsilon_eq, ← hj.target_eq]
      exact hall e' he'
    · intro hall e' he'
      obtain ⟨e, he, hj⟩ := exists_of_forall₂_right hview he'
      rw [hj.isEpsilon_eq, hj.target_eq]
      exact hall e he
  rw [State.QuietInto, State.QuietInto, hstop, h.isSilent_eq, hempty, hall]

theorem quietAhead_withTailCalls_iff (hn : net.withTailCalls = .ok net')
    (hview : ∀ {st st' : State}, JudgedState st st' → List.Forall₂ Judged (view st) (view st')) :
    net'.QuietAhead view s ↔ net.QuietAhead view s := by
  constructor
  · refine fun h => h.imp fun {S t st'} hst' hquiet => ?_
    obtain ⟨st, hst, hj⟩ := judged_of_getElem? hn hst'
    exact ⟨st, hst, (hj.quietInto_iff (hview hj)).1 hquiet⟩
  · refine fun h => h.imp fun {S t st} hst hquiet => ?_
    obtain ⟨st', hst', hj⟩ := getElem?_withTailCalls hn hst
    exact ⟨st', hst', (hj.quietInto_iff (hview hj)).2 hquiet⟩

theorem NoMatchingStop.of_withTailCalls (h : net'.NoMatchingStop)
    (hn : net.withTailCalls = .ok net') : net.NoMatchingStop := by
  intro st hst hstop e he hlabel hlength
  obtain ⟨t, ht⟩ := Array.mem_iff_getElem?.1 (Array.mem_toList_iff.1 hst)
  obtain ⟨st', hst', hj⟩ := getElem?_withTailCalls hn ht
  obtain ⟨e', he', hje⟩ := exists_of_forall₂_left hj.edges he
  obtain rfl : e' = e := by
    obtain rfl | ⟨c, tail, optimizedTail, rfl, -⟩ := hje
    · rfl
    · cases hlabel
  refine h st' (Array.mem_toList_iff.2 (Array.mem_of_getElem? hst')) ?_ e' he' hlabel ?_
  · rw [hj.rest]
    exact hstop
  · rw [← hj.edges.length_eq, hlength]

/-- Where lists are followed that agree with the raw ones, both flags of a judged call are right. -/
theorem TailsAgree.flags_of_judgeTail (h : net.TailsAgree) (hj : net.judgeTail e = .ok (.call c)) :
    (c.tail = true ↔ net.QuietAhead State.edges c.follow) ∧
      (c.optimizedTail = true ↔ net.QuietAhead State.followed c.follow) := by
  cases e with
  | call c' =>
    simp only [judgeTail, bind_eq_ok, pure_eq_ok, Edge.call.injEq] at hj
    obtain ⟨tail, htail, optimizedTail, hoptimized, rfl⟩ := hj
    exact ⟨endsSilently_iff (fun _ hsome => hsome) htail, endsSilently_iff h.fed hoptimized⟩
  | _ => cases pure_eq_ok.1 hj

theorem judgeTail_of_mem (hn : net.withTailCalls = .ok net') (hs : net'.states[s]? = some st')
    (he : e' ∈ st'.edges ∨ e' ∈ st'.followed) : ∃ e, net.judgeTail e = .ok e' := by
  obtain ⟨st, -, -, hedges, hoptimized⟩ :=
    getElem?_of_forall₂ (forall₂_withTailCalls hn).2 (by simpa using hs)
  have raw (he : e' ∈ st'.edges) : ∃ e, net.judgeTail e = .ok e' := by
    obtain ⟨e, -, hj⟩ := exists_of_forall₂_right hedges he
    exact ⟨e, hj⟩
  rcases he with he | he
  · exact raw he
  · rw [State.followed] at he
    generalize st.optimized = o at hoptimized
    generalize st'.optimized = o' at hoptimized he
    cases hoptimized with
    | none => exact raw he
    | some hes =>
      obtain ⟨e, -, hj⟩ := exists_of_forall₂_right hes he
      exact ⟨e, hj⟩

end Network

/-- The tail calls of a loaded network were judged along lists that agree with the raw ones. -/
theorem loadWords_tailsAgree {words : List Word} {options : LoadOptions} {net : Network}
    (hn : loadWords words options = .ok net) :
    ∃ opt : Network, opt.TailsAgree ∧ opt.withTailCalls = .ok net := by
  obtain ⟨decoded, bypassed, opt, hdecode, hbypass, hopt, -, htails⟩ := loadWords_eq_ok hn
  obtain ⟨hd, hsize⟩ := bypassed_keeps hdecode hbypass
  refine ⟨opt, ?_, htails⟩
  obtain ⟨-, rfl⟩ | ⟨-, changes, ho⟩ := hopt
  · exact .of_followed_eq hd.followed_eq
  · refine optimize_of_rewrites (P := TailsAgree) (hd.toWired.inRange hsize.ge)
      (.of_followed_eq fun hs => ?_)
      (fun h hr => h.rewrite hr) ho
    obtain ⟨old, hold, rfl⟩ := hd.exists_of_ensureOptimized hs
    rfl

/-- In a loaded network both flags of every call are exact: `tail` along the raw lists,
`optimizedTail` along the lists that are followed. A call that is a tail call along the followed
lists is one along the raw lists, and if no rule stop has one match as its only edge, then the flags
are the same. -/
theorem loadWords_tailCalls {words : List Word} {options : LoadOptions} {net : Network}
    (hn : loadWords words options = .ok net) :
    ∀ {s : Nat} {st : State} {c : Call}, net.states[s]? = some st →
      .call c ∈ st.edges ∨ .call c ∈ st.followed →
      (c.tail = true ↔ net.QuietAhead State.edges c.follow) ∧
      (c.optimizedTail = true ↔ net.QuietAhead State.followed c.follow) ∧
      (c.optimizedTail = true → c.tail = true) ∧
      (net.NoMatchingStop → c.tail = c.optimizedTail) := by
  obtain ⟨opt, hagree, htails⟩ := loadWords_tailsAgree hn
  intro s st c hs hc
  obtain ⟨e, hj⟩ := judgeTail_of_mem htails hs hc
  obtain ⟨htail, hoptimized⟩ := hagree.flags_of_judgeTail hj
  refine ⟨?_, ?_, fun h => htail.2 (hagree.raw (hoptimized.1 h)), fun hno => ?_⟩
  · rw [htail, quietAhead_withTailCalls_iff htails JudgedState.edges]
  · rw [hoptimized, quietAhead_withTailCalls_iff htails JudgedState.followed]
  · rw [Bool.eq_iff_iff, htail, hoptimized]
    exact ⟨hagree.followed (hno.of_withTailCalls htails), hagree.raw⟩

theorem loadWords_of_unroll (words : List Word) {p : Network → Bool} (rounds : Nat)
    (h : (Wire.decode words).toOption.any
      (fun net => net.check.toOption.isSome && (Loop.unroll optimizeRound rounds ({},
      { net with states := net.states.map State.ensureOptimized })).any (·.toOption.any fun r =>
      r.2.check.toOption.isSome && r.2.withTailCalls.toOption.any p)) = true) :
    ∃ net, loadWords words {} = .ok net ∧ p net = true := by
  have checked {m : Network} (hm : m.check.toOption.isSome = true) : m.check = .ok () := by
    cases hc : m.check with
    | ok u => rfl
    | error e =>
      rw [hc] at hm
      cases hm
  obtain ⟨decoded, hdecode, h⟩ := ok_of_any h
  rw [Bool.and_eq_true] at h
  obtain ⟨⟨changes, opt⟩, hopt, hrest⟩ :=
    @Loop.runOr_of_unroll _ _ _ _ Fault.unfinished rounds _ h.2
  rw [Bool.and_eq_true] at hrest
  obtain ⟨net, htails, hp⟩ := ok_of_any hrest.2
  have hopt : decoded.optimize = .ok (changes, opt) := hopt
  refine ⟨net, bind_eq_ok.2 ⟨decoded, hdecode, ?_⟩, hp⟩
  simp only [Network.prepare, Bool.false_eq_true, false_and, if_false, if_true, pure_bind]
  refine bind_eq_ok.2 ⟨(), checked h.1, bind_eq_ok.2 ⟨(changes, opt), liftM_fault_eq_ok.2 hopt, ?_⟩⟩
  exact bind_eq_ok.2 ⟨(), checked hrest.1, liftM_fault_eq_ok.2 htails⟩

/-- Some call among the raw edges of state `s` has the two flags. -/
def Network.hasFlags (net : Network) (s : Nat) (tail optimizedTail : Bool) : Bool :=
  net.states[s]?.any fun st => st.edges.any fun e =>
    e.call?.any fun c => c.tail == tail && c.optimizedTail == optimizedTail

theorem call_of_hasFlags {net : Network} {s : Nat} {tail optimizedTail : Bool}
    (h : net.hasFlags s tail optimizedTail = true) :
    ∃ st c, net.states[s]? = some st ∧ .call c ∈ st.edges ∧
      c.tail = tail ∧ c.optimizedTail = optimizedTail := by
  obtain ⟨st, hs, h⟩ := Option.any_eq_true _ _ |>.1 h
  simp only [List.any_eq_true, Option.any_eq_true, Bool.and_eq_true, beq_iff_eq] at h
  obtain ⟨e, he, c, hc, htail, hoptimized⟩ := h
  obtain rfl := Edge.call?_eq_some.1 hc
  exact ⟨st, c, hs, he, htail, hoptimized⟩

theorem loadWords_tailCalls_oneCall :
    ∃ net st c, loadWords oneCall {} = .ok net ∧ net.states[1]? = some st ∧
    .call c ∈ st.edges ∧ net.NoMatchingStop ∧ net.QuietAhead State.followed c.follow := by
  obtain ⟨net, hload, hp⟩ := loadWords_of_unroll oneCall
    (p := fun net => net.hasFlags 1 true true && decide net.NoMatchingStop) 3 (by decide +kernel)
  rw [Bool.and_eq_true, decide_eq_true_eq] at hp
  obtain ⟨st, c, hs, hc, htail, hoptimized⟩ := call_of_hasFlags hp.1
  exact ⟨net, st, c, hload, hs, hc, hp.2, (loadWords_tailCalls hload hs (.inl hc)).2.1.1 hoptimized⟩

/-- A call goes on in a decision, and both its branches lead into the rule stop, which has a match.
The branches are merged into that match. -/
def tailPastStop : List Word :=
  parserWords [[2, 0], [7, 0], [1, 0], [3, 0, 4], [8, 0], [2, 1], [7, 1]] [0, 5]
    [eps 0 2, callOf 2 3 5 1, eps 3 1, eps 3 1, atom 1 4 1, eps 4 1, eps 5 6] [3]

/-- The flags of a call may differ where a rule stop matches. -/
theorem tailCalls_differ :
    ∃ net st c, loadWords tailPastStop {} = .ok net ∧ net.states[2]? = some st ∧
    .call c ∈ st.edges ∧ c.tail = true ∧ c.optimizedTail = false := by
  obtain ⟨net, hload, hp⟩ := loadWords_of_unroll tailPastStop
    (p := fun net => net.hasFlags 2 true false) 3 (by decide +kernel)
  obtain ⟨st, c, hs, hc, htail, hoptimized⟩ := call_of_hasFlags hp
  exact ⟨net, st, c, hload, hs, hc, htail, hoptimized⟩

end GrammarWalk
