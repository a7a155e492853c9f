import GrammarWalk.Proofs.Load.Language

/-! A word stream says where it ends. What is read depends on the words taken and on none behind
them, and a stream that is cut short is found out at its first missing word, since all checks before
it have been passed. -/

namespace GrammarWalk

namespace Wire

namespace Reader

variable {α β : Type} {read : Reader α} {c : Cursor} {a : α} {b : β} {o : Nat}
  {taken taken' : List Word}

/-- Behind the first `o` words, the reader takes these words and gives `a`, whatever comes next. If
some of them are missing, it ends at the first of those. -/
structure Takes (read : Reader α) (o : Nat) (taken : List Word) (a : α) : Prop where
  result : ∀ rest, read { offset := o, rest := taken ++ rest } =
    .ok (a, { offset := o + taken.length, rest })
  truncated : ∀ k < taken.length,
    read { offset := o, rest := taken.take k } = .error (.format (.truncated (o + k)))

/-- All that the reader gives, it gives for words that it takes. -/
def Delimited (read : Reader α) : Prop :=
  ∀ c a c', read c = .ok (a, c') → ∃ taken, c.rest = taken ++ c'.rest ∧ Takes read c.offset taken a

theorem bind_apply {f : α → Reader β} : (read >>= f) c = read c >>= fun p => f p.1 p.2 := rfl

theorem Takes.bind {f : α → Reader β} (h : Takes read o taken a)
    (hf : Takes (f a) (o + taken.length) taken' b) : Takes (read >>= f) o (taken ++ taken') b where
  result rest := by
    rw [bind_apply, List.append_assoc, h.result]
    refine (hf.result rest).trans ?_
    rw [List.length_append, Nat.add_assoc]
  truncated k hk := by
    rw [List.length_append] at hk
    rcases Nat.lt_or_ge k taken.length with hlt | hge
    · -- the first reader does not find all of its words
      rw [bind_apply, List.take_append_of_le_length hlt.le, h.truncated k hlt]
      rfl
    · obtain ⟨j, rfl⟩ := Nat.exists_eq_add_of_le hge
      rw [bind_apply, List.take_length_add_append, h.result, ← Nat.add_assoc]
      exact hf.truncated j (by omega)

theorem Takes.of_word (w : Word) : Takes word o [w] w.toNat where
  result _ := rfl
  truncated k hk := by
    obtain rfl : k = 0 := Nat.lt_one_iff.1 hk
    rfl

theorem Takes.nil (h : ∀ rest, read { offset := o, rest } = .ok (a, { offset := o, rest })) :
    Takes read o [] a where
  result := h
  truncated _ hk := absurd hk (Nat.not_lt_zero _)

section combinators

theorem delimited_pure : Delimited (pure a : Reader α) := by
  rintro c _ _ h
  obtain ⟨rfl, rfl⟩ := pure_reads.1 h
  exact ⟨[], rfl, .nil fun _ => rfl⟩

theorem delimited_fail {e : FormatError} : Delimited (fail e : Reader α) :=
  fun _ _ _ h => (fail_reads.1 h).elim

theorem delimited_reject {d : Defect} : Delimited (reject d : Reader α) :=
  fun _ _ _ h => (reject_reads.1 h).elim

theorem Delimited.bind {f : α → Reader β} (h : Delimited read) (hf : ∀ a, Delimited (f a)) :
    Delimited (read >>= f) := by
  rintro c b c' hread
  obtain ⟨a, d, ha, hb⟩ := bind_reads.1 hread
  obtain ⟨taken, htaken, htakes⟩ := h _ _ _ ha
  obtain ⟨taken', htaken', htakes'⟩ := hf a _ _ _ hb
  have hd : d.offset = c.offset + taken.length := by
    have hresult := htakes.result d.rest
    rw [← htaken] at hresult
    exact congrArg (fun p => p.2.offset) (Except.ok.inj (ha.symm.trans hresult))
  exact ⟨taken ++ taken', by rw [htaken, htaken', List.append_assoc], htakes.bind (hd ▸ htakes')⟩

theorem delimited_ite {p : Prop} [Decidable p] {read' : Reader α} (h : Delimited read)
    (h' : Delimited read') :
    Delimited (if p then read else read') := by
  split
  · exact h
  · exact h'

theorem delimited_guard {p : Prop} [Decidable p] {x : Reader PUnit} (hx : Delimited x)
    (h : Delimited read) :
    Delimited (if p then x >>= fun _ => read else read) := delimited_ite (hx.bind fun _ => h) h

theorem delimited_offset : Delimited offset := by
  rintro c _ _ h
  obtain ⟨rfl, rfl⟩ := Prod.mk.inj (Except.ok.inj h)
  exact ⟨[], rfl, .nil fun _ => rfl⟩

theorem delimited_word : Delimited word := by
  rintro ⟨offset, _ | ⟨w, rest⟩⟩ _ _ h
  · cases h
  · obtain ⟨rfl, rfl⟩ := Prod.mk.inj (Except.ok.inj h)
    exact ⟨[w], rfl, .of_word w⟩

theorem delimited_liftM {x : Except LoadError α} : Delimited (liftM x : Reader α) := by
  rintro c a _ h
  obtain ⟨rfl, rfl⟩ := liftM_load_reads.1 h
  exact ⟨[], rfl, .nil fun _ => rfl⟩

theorem delimited_liftM_fault {x : Except Fault α} : Delimited (liftM x : Reader α) := by
  rintro c a _ h
  obtain ⟨rfl, rfl⟩ := liftM_fault_reads.1 h
  exact ⟨[], rfl, .nil fun _ => rfl⟩

theorem delimited_times (h : Delimited read) : ∀ n, Delimited (times read n)
  | 0 => delimited_pure
  | n + 1 => h.bind fun _ => (delimited_times h n).bind fun _ => delimited_pure

theorem delimited_counted (h : Delimited read) : Delimited (counted read) :=
  delimited_word.bind fun n => delimited_times h n

theorem delimited_iterate {step : α → Reader α} (h : ∀ a, Delimited (step a)) :
    ∀ n a, Delimited (iterate step n a)
  | 0, _ => delimited_pure
  | n + 1, a => (h a).bind fun b => delimited_iterate h n b

theorem delimited_countedSteps {step : α → Reader α} (h : ∀ a, Delimited (step a)) (a : α) :
    Delimited (countedSteps step a) :=
  delimited_word.bind fun n => delimited_iterate h n a

theorem delimited_tagged {part : Part} {ofTag? : Nat → Option α} : Delimited (tagged part ofTag?) :=
  delimited_offset.bind fun _ => delimited_word.bind fun tag => by
    cases ofTag? tag
    · exact delimited_fail
    · exact delimited_pure

theorem delimited_forM {f : β → Reader PUnit} (h : ∀ b, Delimited (f b)) : ∀ l :
    List β, Delimited (l.forM f)
  | [] => delimited_pure
  | b :: l => (h b).bind fun _ => delimited_forM h l

end combinators

end Reader

open Reader

section sections

variable {net : Network} {version : Version} {sets : List SymbolSet}

theorem delimited_refer {what : Reference} {s : Nat} : Delimited (refer net what s) :=
  delimited_ite delimited_pure delimited_reject

theorem delimited_readRow : Delimited readRow := by
  refine delimited_tagged.bind fun type => delimited_ite delimited_pure ?_
  refine (delimited_word.bind fun _ => delimited_pure).bind fun rule => ?_
  exact delimited_ite (delimited_word.bind fun _ => delimited_pure) delimited_pure

theorem delimited_readStates : Delimited (readStates net) := by
  refine (delimited_counted delimited_readRow).bind fun rows => ?_
  extract_lets states net'
  have link (what : Reference) (b : Bool) (r : Row) :
      Delimited (if b = true then r.link.forM (refer net' what) else pure PUnit.unit) := by
    refine delimited_ite ?_ delimited_pure
    cases r.link with
    | none => exact delimited_pure
    | some t => exact delimited_refer
  refine (delimited_forM (fun r => link _ r.isLoop r) rows).bind fun _ => ?_
  exact (delimited_forM (fun r => link _ r.isBlock r) rows).bind fun _ => delimited_pure

theorem delimited_readNonGreedy : Delimited (readNonGreedy net) := by
  refine delimited_word.bind fun s => delimited_refer.bind fun _ =>
    delimited_liftM_fault.bind fun st => ?_
  cases st.kind.decision? with
  | none => exact delimited_reject
  | some d => exact delimited_pure

theorem delimited_readPrecedenceRule : Delimited (readPrecedenceRule net) := by
  refine delimited_word.bind fun s => delimited_refer.bind fun _ =>
    delimited_liftM_fault.bind fun st => ?_
  split
  · exact delimited_pure
  · exact delimited_reject

theorem delimited_readRule : Delimited (readRule version net) := by
  refine delimited_word.bind fun start => delimited_refer.bind fun _ =>
    delimited_liftM_fault.bind fun st => ?_
  refine delimited_guard delimited_reject ?_
  extract_lets net'
  split
  · exact delimited_pure
  · exact delimited_word.bind fun type =>
      delimited_ite (delimited_word.bind fun _ => delimited_pure) delimited_pure

theorem delimited_readMode : Delimited (readMode net) :=
  delimited_word.bind fun _ => delimited_refer.bind fun _ => delimited_liftM_fault.bind fun _ =>
    delimited_guard delimited_reject delimited_pure

theorem delimited_readSet {bound : Reader Int} (h : Delimited bound) : Delimited (readSet bound) :=
  delimited_word.bind fun n => delimited_word.bind fun _ =>
    delimited_iterate (fun _ => h.bind fun _ => h.bind fun _ => delimited_pure) n _

theorem delimited_readWideBound : Delimited readWideBound := by
  have double : Delimited Reader.double :=
    delimited_word.bind fun _ => delimited_word.bind fun _ => delimited_pure
  exact delimited_offset.bind fun _ => double.bind fun _ =>
    delimited_ite delimited_pure delimited_fail

theorem delimited_readSets : Delimited (readSets version) := by
  have narrow := delimited_counted
    (delimited_readSet (delimited_word.bind fun w => delimited_pure (a := (w : Int))))
  refine narrow.bind fun _ => delimited_ite ?_ delimited_pure
  exact (delimited_counted (delimited_readSet delimited_readWideBound)).bind fun _ => delimited_pure

theorem delimited_makeEdge {kind : EdgeKind} {target a b c : Nat} :
    Delimited (makeEdge net sets kind target a b c) := by
  have setAt : Delimited (setAt sets a) := by
    unfold Wire.setAt
    split
    · exact delimited_pure
    · exact delimited_reject
  cases kind with
  | call => exact delimited_refer.bind fun _ => delimited_pure
  | set | notSet => exact setAt.bind fun _ => delimited_pure
  | _ => exact delimited_pure

theorem delimited_readEdge : Delimited (readEdge sets net) := by
  refine delimited_offset.bind fun _ => delimited_word.bind fun source =>
    delimited_refer.bind fun _ => ?_
  refine delimited_word.bind fun _ => delimited_refer.bind fun _ =>
    delimited_word.bind fun tag => ?_
  refine delimited_word.bind fun _ => delimited_word.bind fun _ => delimited_word.bind fun _ => ?_
  cases EdgeKind.ofTag? tag with
  | none => exact delimited_fail
  | some kind => exact delimited_makeEdge.bind fun _ => delimited_liftM_fault.bind fun _ =>
    delimited_pure

theorem delimited_readDecision : Delimited (readDecision net) := by
  refine delimited_word.bind fun s => delimited_refer.bind fun _ =>
    delimited_liftM_fault.bind fun st => ?_
  refine delimited_guard delimited_reject ?_
  cases net.defineDecision s with
  | none => exact delimited_reject
  | some numbered => exact delimited_pure

theorem delimited_readCommands : Delimited (readCommands version net) := by
  have operand : Delimited Reader.operand := delimited_word.bind fun _ => delimited_pure
  have command : Delimited readCommand :=
    delimited_tagged.bind fun _ => operand.bind fun _ => operand.bind fun _ => delimited_pure
  unfold readCommands
  split
  · exact delimited_pure
  · exact delimited_ite ((delimited_counted command).bind fun _ => delimited_pure) delimited_pure

theorem delimited_readVersion : Delimited readVersion := by
  have identifier : Delimited Reader.identifier :=
    (delimited_times delimited_word identifierWords).bind fun _ => delimited_pure
  refine delimited_word.bind fun found =>
    delimited_guard delimited_fail (identifier.bind fun id => ?_)
  cases Version.ofIdentifier? id with
  | none => exact delimited_fail
  | some version => exact delimited_pure

theorem delimited_readNetwork : Delimited readNetwork := by
  refine delimited_readVersion.bind fun version => delimited_tagged.bind fun kind => ?_
  refine delimited_word.bind fun maxToken => delimited_readStates.bind fun states => ?_
  refine (delimited_countedSteps (fun _ => delimited_readNonGreedy) _).bind fun nonGreedy => ?_
  refine (delimited_countedSteps (fun _ => delimited_readPrecedenceRule) _).bind
    fun precedence => ?_
  refine (delimited_countedSteps (fun _ => delimited_readRule) _).bind fun rules => ?_
  refine delimited_liftM.bind fun linked => ?_
  refine (delimited_countedSteps (fun _ => delimited_readMode) _).bind fun modes => ?_
  refine delimited_readSets.bind fun sets => ?_
  refine (delimited_countedSteps (fun _ => delimited_readEdge) _).bind fun edges => ?_
  refine delimited_liftM_fault.bind fun returns => delimited_liftM.bind fun blocks => ?_
  refine delimited_liftM_fault.bind fun loops => ?_
  refine (delimited_countedSteps (fun _ => delimited_readDecision) _).bind fun decisions => ?_
  exact delimited_readCommands.bind fun commands => delimited_liftM_fault

end sections

theorem unshift_take (words : List Word) (k : Nat) :
    unshift (words.take k) = (unshift words).take k := by
  cases words with
  | nil => simp [unshift]
  | cons w words =>
    cases k with
    | zero => rfl
    | succ k => simp [unshift]

theorem unshift_append {words : List Word} (h : words ≠ []) (more : List Word) :
    unshift (words ++ more) = unshift words ++ more.map (· - shift) := by
  cases words with
  | nil => exact absurd rfl h
  | cons w words => simp [unshift]

@[simp] theorem length_unshift (words : List Word) : (unshift words).length = words.length := by
  cases words <;> simp [unshift]

theorem decode_of_read {words : List Word} {net : Network} {c : Cursor}
    (h : readNetwork { offset := 0, rest := unshift words } = .ok (net, c)) :
    decode words = .ok net := by
  rw [decode, h]
  rfl

theorem decode_of_not_read {words : List Word} {e : LoadError}
    (h : readNetwork { offset := 0, rest := unshift words } = .error e) :
    decode words = .error e := by
  rw [decode, h]
  rfl

/-- The words of a network end after some number of them: from there on other words make no
difference, and without one of them the first that is missing is reported. -/
theorem decode_delimited {words : List Word} {net : Network} (h : decode words = .ok net) :
    ∃ n ≤ words.length, (∀ k, n ≤ k → decode (words.take k) = .ok net) ∧
      (∀ more, decode (words ++ more) = .ok net) ∧
      ∀ k < n, decode (words.take k) = .error (.format (.truncated k)) := by
  obtain ⟨⟨_, c⟩, hread, rfl⟩ := map_eq_ok.1 h
  obtain ⟨taken, htaken, htakes⟩ := delimited_readNetwork _ _ _ hread
  have htaken : unshift words = taken ++ c.rest := htaken
  have hlength := congrArg List.length htaken
  rw [length_unshift, List.length_append] at hlength
  refine ⟨taken.length, by omega, fun k hk => ?_, fun more => ?_, fun k hk => ?_⟩
  · obtain ⟨j, rfl⟩ := Nat.exists_eq_add_of_le hk
    apply decode_of_read
    rw [unshift_take, htaken, List.take_length_add_append]
    exact htakes.result _
  · have hne : words ≠ [] := by
      rintro rfl
      cases h
    apply decode_of_read
    rw [unshift_append hne, htaken, List.append_assoc]
    exact htakes.result _
  · apply decode_of_not_read
    rw [unshift_take, htaken, List.take_append_of_le_length hk.le]
    simpa using htakes.truncated k hk

end Wire

/--
A stream that loads has an end of its own. Each beginning of it that is long enough loads to the
same network, and so does the stream with any words behind it; a shorter beginning is refused as
truncated, at its end.
-/
theorem loadWords_delimited {words : List Wire.Word} {options : LoadOptions} {net : Network}
    (hload : loadWords words options = .ok net) : ∃ n ≤ words.length,
      (∀ start, start <+: words → n ≤ start.length → loadWords start options = .ok net) ∧
      (∀ more, loadWords (words ++ more) options = .ok net) ∧
      ∀ start, start <+: words → start.length < n →
        loadWords start options = .error (.format (.truncated start.length)) := by
  obtain ⟨decoded, hdecode, hprepare⟩ := bind_eq_ok.1 hload
  obtain ⟨n, hn, hlonger, hmore, hshorter⟩ := Wire.decode_delimited hdecode
  have prepared {ws : List Wire.Word} (h : Wire.decode ws = .ok decoded) :
      loadWords ws options = .ok net := by
    rw [loadWords, h]
    exact hprepare
  refine ⟨n, hn, fun start hstart hle => prepared ?_, fun more => prepared (hmore more),
    fun start hstart hlt => ?_⟩
  · rw [List.prefix_iff_eq_take.1 hstart]
    exact hlonger _ hle
  · have hdecode : Wire.decode start = .error (.format (.truncated start.length)) := by
      conv_lhs => rw [List.prefix_iff_eq_take.1 hstart]
      exact hshorter _ hlt
    rw [loadWords, hdecode]
    rfl

open Wire in
/-- Behind the words of a network there may be others, as here behind those of a rule that calls
another. -/
theorem loadWords_delimited_oneCall :
    ∃ net, loadWords (oneCall ++ [7, 7]) { optimize := false } = .ok net ∧
    ∃ n ≤ (oneCall ++ [7, 7]).length,
      (∀ start, start <+: oneCall ++ [7, 7] → n ≤ start.length →
        loadWords start { optimize := false } = .ok net) ∧
      (∀ more, loadWords (oneCall ++ [7, 7] ++ more) { optimize := false } = .ok net) ∧
      ∀ start, start <+: oneCall ++ [7, 7] → start.length < n →
        loadWords start { optimize := false } = .error (.format (.truncated start.length)) := by
  have hload : loadWords (oneCall ++ [7, 7]) { optimize := false } =
      .ok (loaded (oneCall ++ [7, 7])) :=
    loadWords_loaded (by decide +kernel)
  exact ⟨_, hload, loadWords_delimited hload⟩

end GrammarWalk
