import GrammarWalk.Proofs.Debug.Ask
import GrammarWalk.Proofs.Debug.InPlace

/-! What a call reports: an error for each diagnostic of a start and for each failure of the parse
on the way, and one event at its end that says why it stopped. A step adds to the queue what it adds
to the failures; the run adds what its steps add, and its last step the end. -/

namespace GrammarWalk

/-- What is reported of a character that no rule accepts. -/
def Diagnostic.event (d : Diagnostic) : Event := .output d.message none d.line d.column true

theorem EventQueue.events_foldl {α : Type} (f : α → Event) (l : List α) (q : EventQueue) :
    (l.foldl (fun q a => q.push (f a)) q).events = q.events ++ l.map f := by
  induction l generalizing q with
  | nil => exact (List.append_nil _).symm
  | cons a l ih =>
    rw [List.foldl_cons, ih, List.map_cons, EventQueue.push, List.append_assoc]
    rfl

def Failure.event (tokens : Tokens) (grammar : Grammar) (f : Failure) : Event :=
  .output (f.describe tokens grammar) none (tokens.get f.offending).line
    (tokens.get f.offending).column true

def Tokens.Alike (ts ts' : Tokens) : Prop := ts'.body = ts.body ∧ ts'.last = ts.last

theorem Failure.event_congr {tokens tokens' : Tokens} {grammar : Grammar}
    (h : tokens.Alike tokens') : Failure.event tokens' grammar = Failure.event tokens grammar := by
  obtain ⟨hbody, hlast⟩ := h
  have hget (i : Nat) : tokens'.get i = tokens.get i := by rw [Tokens.get, Tokens.get, hbody, hlast]
  have htext (i j : Nat) : tokens'.textBetween i j = tokens.textBetween i j := by
    simp only [Tokens.textBetween, Tokens.lastIndex, Tokens.toList, hbody, hlast]
  have hdescribe (f : Failure) : f.describe tokens' grammar = f.describe tokens grammar := by
    unfold describe tokenText
    simp only [hget, htext]
  funext f
  rw [event, event, hdescribe, hget]

namespace Walker

variable {w w' : Walker}

theorem Continues.alike (h : w.Continues w') : w.tokens.Alike w'.tokens := ⟨h.body, h.last⟩

theorem alike_finishRoot (h : w.finishRoot = .ok w') : w.tokens.Alike w'.tokens := by
  obtain ⟨v, hv, rfl⟩ := finishRoot_smooth h
  exact hv.toContinues.alike

end Walker

namespace Session

variable {s t u : Session} {w w' w'' : Walker} {run : Run} {stop : Bool}
  {passing passing' : List Event}
  {news news' : List Failure}

/-- From the parse `w` to the parse `w'` the session puts the events `passing` in the queue, none of
which ends a run, and among which there is an error for each of the failures `news` that the parse
adds. -/
structure Adds (s : Session) (w : Walker) (t : Session) (w' : Walker) (passing : List Event)
    (news : List Failure) : Prop where
  walker : t.walker = some w'
  grammar : t.grammar = s.grammar
  tokens : w.tokens.Alike w'.tokens
  events : t.events.events = s.events.events ++ passing
  running : ∀ e ∈ passing, e.isStop = false
  failures : w'.failures = w.failures ++ news
  errors : passing.filter Event.isError = news.map (Failure.event w.tokens s.grammar)

theorem adds_nothing (hw : t.walker = some w') (hgrammar : t.grammar = s.grammar)
    (hevents : t.events = s.events) (htokens : w.tokens.Alike w'.tokens)
    (hfailures : w'.failures = w.failures) : s.Adds w t w' [] [] where
  walker := hw
  grammar := hgrammar
  tokens := htokens
  events := by rw [hevents, List.append_nil]
  running := by simp
  failures := by rw [hfailures, List.append_nil]
  errors := rfl

theorem Adds.trans (h : s.Adds w t w' passing news) (h' : t.Adds w' u w'' passing' news') :
    s.Adds w u w'' (passing ++ passing') (news ++ news') where
  walker := h'.walker
  grammar := h'.grammar.trans h.grammar
  tokens := ⟨h'.tokens.1.trans h.tokens.1, h'.tokens.2.trans h.tokens.2⟩
  events := by rw [h'.events, h.events, List.append_assoc]
  running := by
    intro e he
    exact (List.mem_append.1 he).elim (h.running e) (h'.running e)
  failures := by rw [h'.failures, h.failures, List.append_assoc]
  errors := by
    rw [List.filter_append, List.map_append, h.errors, h'.errors, h.grammar,
      Failure.event_congr h.tokens]

theorem moveAlong_reports {st : State} (h : s.moveAlong st = .ok t) :
    t.grammar = s.grammar ∧ t.events = s.events := by
  obtain rfl | ⟨f, rest, next, -, rfl⟩ := moveAlong_cases h <;> exact ⟨rfl, rfl⟩

theorem takeEdge_adds (h : s.takeEdge w = .ok t) :
    ∃ w' passing news, s.Adds w t w' passing news ∧ w'.finished = w.finished := by
  rw [takeEdge, bind_eq_ok] at h
  obtain ⟨r, hr, h⟩ := h
  split at h
  · rename_i w'
    obtain rfl := pure_eq_ok.1 h
    have hcont := Walker.continues_visit hr
    exact ⟨w', [], [], adds_nothing rfl rfl rfl hcont.alike (Walker.failures_visit hr),
      hcont.finished⟩
  · rename_i f
    simp only [bind_eq_ok, pure_eq_ok] at h
    obtain ⟨w', hw', rfl⟩ := h
    have hcont := Walker.continues_fail hw'
    refine ⟨w', [f.event w.tokens s.grammar], [f], ⟨rfl, rfl, hcont.alike, rfl, ?_, ?_, rfl⟩,
      hcont.finished⟩
    · intro e he
      rw [List.mem_singleton.1 he]
      rfl
    · exact Walker.failures_fail hw'

/-- A step adds its errors, and with them, if it is the last, an event that says why. It says that
the parse is finished exactly if it is. -/
structure Ends (u : Session) (w' : Walker) (stop : Bool) (t : Session) (e : Event) : Prop where
  session : t = if stop then u.report e else u
  isStop : e.isStop = true
  finished : e = .finished ↔ w'.finished = true
  last : w'.finished = true → stop = true

theorem ends_stopIf {e : Event} {b : Bool} (h : u.stopIf b e = (stop, t)) (he : e.isStop = true)
    (hf : e = .finished ↔ w'.finished = true) (hlast : w'.finished = true → b = true) :
    u.Ends w' stop t e := by
  obtain ⟨rfl, rfl⟩ := Prod.mk.inj h
  exact ⟨rfl, he, hf, hlast⟩

theorem leaveRule_adds {p : Nat} (hf : w.finished = false)
    (h : s.leaveRule run w p = .ok (stop, t)) :
    ∃ u w' passing news e, s.Adds w u w' passing news ∧ u.Ends w' stop t e := by
  rw [leaveRule, bind_eq_ok] at h
  obtain ⟨root, -, h⟩ := h
  split at h
  · simp only [bind_eq_ok, pure_eq_ok] at h
    obtain ⟨w', hw', h⟩ := h
    have hfinished := Walker.finished_finishRoot hw'
    refine ⟨_, w', [], [], .finished, ?_,
      ends_stopIf h rfl (iff_of_true rfl hfinished) fun _ => rfl⟩
    exact adds_nothing rfl rfl rfl (Walker.alike_finishRoot hw') (Walker.failures_finishRoot hw')
  · simp only [bind_eq_ok, pure_eq_ok] at h
    obtain ⟨w', hw', h⟩ := h
    have hcont := Walker.continues_visitStop hw'
    have hunfinished : ¬ w'.finished = true := by simp [hcont.finished, hf]
    refine ⟨_, w', [], [], .stepped p, ?_, ends_stopIf h rfl
      (iff_of_false (fun h => Event.noConfusion h) hunfinished) fun h => absurd h hunfinished⟩
    exact adds_nothing rfl rfl rfl hcont.alike (Walker.failures_visitStop hw')

theorem passState_adds {st : State} {p : Nat} (hf : w.finished = false)
    (h : s.passState run w st p = .ok (stop, t)) :
    ∃ u w' passing news e, s.Adds w u w' passing news ∧ u.Ends w' stop t e := by
  rw [passState, bind_eq_ok] at h
  obtain ⟨u, hu, h⟩ := h
  obtain ⟨w', passing, news, hadds, hsame⟩ := takeEdge_adds hu
  have hunfinished : ¬ w'.finished = true := by simp [hsame, hf]
  have hframe : s.Adds w u w' passing news := by
    split at hadds
    · exact ⟨hadds.walker, hadds.grammar, hadds.tokens, hadds.events, hadds.running,
        hadds.failures, hadds.errors⟩
    · exact hadds
  split at h
  · exact ⟨u, w', passing, news, .hit p, hframe, ends_stopIf (pure_eq_ok.1 h) rfl
      (iff_of_false (fun h => Event.noConfusion h) hunfinished) fun h => absurd h hunfinished⟩
  · exact ⟨u, w', passing, news, .stepped p, hframe, ends_stopIf (pure_eq_ok.1 h) rfl
      (iff_of_false (fun h => Event.noConfusion h) hunfinished) fun h => absurd h hunfinished⟩

theorem step_adds (hf : w.finished = false) (h : s.step run w = .ok (stop, t)) :
    ∃ u w' passing news e, s.Adds w u w' passing news ∧ u.Ends w' stop t e := by
  simp only [step, bind_eq_ok] at h
  obtain ⟨st, -, v, hv, h⟩ := h
  obtain ⟨hgrammar, hevents⟩ := moveAlong_reports hv
  have hstep : ∃ u w' passing news e, v.Adds w u w' passing news ∧ u.Ends w' stop t e := by
    split at h
    · exact leaveRule_adds hf h
    · exact passState_adds hf h
  obtain ⟨u, w', passing, news, e, hadds, hends⟩ := hstep
  refine ⟨u, w', passing, news, e, ?_, hends⟩
  exact ⟨hadds.walker, hadds.grammar.trans hgrammar, hadds.tokens, hevents ▸ hadds.events,
    hadds.running, hadds.failures, hgrammar ▸ hadds.errors⟩

theorem Ends.report {e : Event} (h : u.Ends w' true t e) : t = u.report e := h.session

theorem run_adds (hw : s.walker = some w) (hf : w.finished = false)
    (h : Loop.runOr (.fault .unfinished) (runStep run) s = .ok t) :
    ∃ u w' passing news e, s.Adds w u w' passing news ∧ u.Ends w' true t e := by
  have hagain {a b : Session} {v : Walker} (ha : ∃ v passing news, s.Adds w a v passing news)
    (hv : a.walker = some v)
      (hfv : v.finished = false) (hstep : a.step run v = .ok (false, b)) :
      ∃ v passing news, s.Adds w b v passing news := by
    obtain ⟨v', passing, news, hadds⟩ := ha
    obtain rfl := Option.some.inj (hv.symm.trans hadds.walker)
    obtain ⟨u, w', passing', news', e, hadds', hends⟩ := step_adds hfv hstep
    obtain rfl : _ = u := hends.session
    exact ⟨w', _, _, hadds.trans hadds'⟩
  -- what the steps before the last one have added
  obtain ⟨l, v, ⟨v', passing, news, hadds⟩, hv, hfv, hlast⟩ :=
    run_keeps hagain ⟨w, [], [], adds_nothing hw rfl rfl ⟨rfl, rfl⟩ rfl⟩ hw hf h
  obtain rfl := Option.some.inj (hv.symm.trans hadds.walker)
  obtain ⟨u, w', passing', news', e, hadds', hends⟩ := step_adds hfv hlast
  exact ⟨u, w', _, _, e, hadds.trans hadds', hends⟩

theorem resume_adds {mode : RunMode} (hw : s.walker = some w) (h : s.resume mode = .ok t) :
    ∃ u w' passing news e, s.Adds w u w' passing news ∧ u.Ends w' true t e := by
  obtain ⟨v, hv, hcases⟩ := resume_cases h
  obtain rfl := Option.some.inj (hw.symm.trans hv)
  obtain ⟨hf, rfl⟩ | ⟨hf, st, -, hrun⟩ := hcases
  · have hends : s.Ends w true (s.report .finished) .finished :=
      ⟨rfl, rfl, iff_of_true rfl hf, fun _ => rfl⟩
    exact ⟨s, w, [], [], .finished, adds_nothing hw rfl rfl ⟨rfl, rfl⟩ rfl, hends⟩
  · exact run_adds hw hf hrun

/-- The diagnostics of a start. -/
def Call.diagnostics (s : Session) : Call → List Diagnostic
  | .start _ input => ((Tokenizer.tokenize s.lexer input).toOption.map (·.2)).getD []
  | .resume _ => []

/-- The failures that are on record when a call begins; a start begins a new record. -/
def Call.onRecord (s : Session) : Call → List Failure
  | .start .. => []
  | .resume _ => s.failures

/-- The call leaves the session `t` with the parse `w`, and has put in the queue the events
`passing` and after them `e`, which is the only one that ends a run. The errors among them are those
of the diagnostics and of the failures `news` that were recorded on the way. -/
structure Reports (s : Session) (c : Call) (t : Session) (w : Walker) (passing : List Event)
    (e : Event) (news : List Failure) : Prop where
  walker : t.walker = some w
  events : t.events.events = s.events.events ++ (passing ++ [e])
  running : ∀ e ∈ passing, e.isStop = false
  stop : e.isStop = true
  failures : w.failures = c.onRecord s ++ news
  errors : passing.filter Event.isError =
    (c.diagnostics s).map Diagnostic.event ++ news.map (Failure.event w.tokens t.grammar)
  finished : e = .finished ↔ t.isFinished = true

theorem events_of_enter {rule : Nat} {input : String} (h : s.enter rule input = .ok (w, t)) :
    t.walker = some w ∧ w.failures = [] ∧ ∃ passing, t.events.events = s.events.events ++ passing ∧
      (∀ e ∈ passing, e.isStop = false) ∧
      passing.filter Event.isError =
        ((Call.start rule input).diagnostics s).map Diagnostic.event := by
  obtain ⟨-, tokens, diagnostics, htokens, hroot, rfl⟩ := enter_eq_ok h
  let bound := (s.breakpoints.reset.validateAll s.parser s.grammar).1
  have herrors := EventQueue.events_foldl Diagnostic.event diagnostics s.events
  have hbound := EventQueue.events_foldl Event.bound bound
  have hdiagnostics : (Call.start rule input).diagnostics s = diagnostics := by
    rw [Call.diagnostics, htokens]
    rfl
  refine ⟨rfl, Walker.failures_enterRoot hroot,
    diagnostics.map Diagnostic.event ++ bound.map .bound, ?_, ?_, ?_⟩
  · refine (hbound _).trans ?_
    rw [← List.append_assoc]
    exact congrArg (· ++ _) herrors
  · intro e he
    rw [List.mem_append, List.mem_map, List.mem_map] at he
    obtain ⟨d, -, rfl⟩ | ⟨b, -, rfl⟩ := he
    all_goals rfl
  · rw [hdiagnostics, List.filter_append, List.filter_eq_self.2, List.filter_eq_nil_iff.2,
      List.append_nil]
    · intro e he
      obtain ⟨b, -, rfl⟩ := List.mem_map.1 he
      exact Bool.false_ne_true
    · intro e he
      obtain ⟨d, -, rfl⟩ := List.mem_map.1 he
      rfl

theorem isFinished_report {e : Event} (hw : t.walker = some w) :
    (t.report e).isFinished = w.finished := by
  show t.walker.any _ = _
  rw [hw]
  rfl

theorem resume_reports {mode : RunMode} (h : s.resume mode = .ok t) :
    ∃ w passing e news, s.Reports (.resume mode) t w passing e news := by
  obtain ⟨w, hw⟩ : ∃ w, s.walker = some w := by
    unfold resume at h
    split at h
    · cases h
    · exact ⟨_, ‹_›⟩
  obtain ⟨u, w', passing, news, e, hadds, hends⟩ := resume_adds hw h
  obtain rfl := hends.report
  refine ⟨w', passing, e, news, hadds.walker, ?_, hadds.running, hends.isStop, ?_, ?_, ?_⟩
  · rw [report, EventQueue.push, hadds.events, List.append_assoc]
  · rw [hadds.failures, Call.onRecord, Session.failures, hw]
    rfl
  · rw [hadds.errors, report, hadds.grammar, Failure.event_congr hadds.tokens]
    rfl
  · rw [isFinished_report hadds.walker]
    exact hends.finished

theorem start_reports {rule : Nat} {input : String} (h : s.start rule input = .ok t) :
    ∃ w passing e news, s.Reports (.start rule input) t w passing e news := by
  simp only [start, bind_eq_ok] at h
  obtain ⟨⟨w, u⟩, hu, h⟩ := h
  obtain ⟨hw, hnone, first, hevents, hrunning, herrors⟩ := events_of_enter hu
  split at h
  · obtain rfl := pure_eq_ok.1 h
    refine ⟨w, first, .stepped w.state, [], hw, ?_, hrunning, rfl, hnone, ?_, ?_⟩
    · rw [report, EventQueue.push, hevents, List.append_assoc]
    · rw [herrors, List.map_nil, List.append_nil]
    · rw [isFinished_report hw, (unfinished_of_enter hu).2.1]
      exact iff_of_false (fun h => Event.noConfusion h) Bool.false_ne_true
  · obtain ⟨v, w', passing, news, e, hadds, hends⟩ := resume_adds hw h
    obtain rfl := hends.report
    refine ⟨w', first ++ passing, e, news, hadds.walker, ?_, ?_, hends.isStop, ?_, ?_, ?_⟩
    · rw [report, EventQueue.push, hadds.events, hevents]
      simp only [List.append_assoc]
    · intro e he
      exact (List.mem_append.1 he).elim (hrunning e) (hadds.running e)
    · rw [hadds.failures, hnone]
      rfl
    · rw [List.filter_append, herrors, hadds.errors, report, hadds.grammar,
        Failure.event_congr hadds.tokens]
    · rw [isFinished_report hadds.walker]
      exact hends.finished

/-- A call that succeeds adds to the queue what happens on the way and then why it stopped, once; a
call that is refused leaves the session as it was. -/
theorem call_reports (s : Session) (c : Call) :
    settled (s.perform c) = s.call c ∧
      (∀ t, s.perform c = .ok t → ∃ w passing e news, s.Reports c t w passing e news) ∧
      ∀ m t, s.perform c = .error (.misuse m, t) → t = s := by
  refine ⟨settled_perform s c, fun t h => ?_, fun m t h => refused_perform h⟩
  have hcall : s.call c = .ok t := by
    rw [← settled_perform, h]
    rfl
  cases c with
  | start rule input => exact start_reports hcall
  | resume mode => exact resume_reports hcall

/-- An input of a letter that no rule accepts: a diagnostic, a failure at the end of the input, and
the end of the parse. There is no second rule to start with. -/
theorem call_reports_letter :
    (∃ t w passing news, letterSession.perform (.start 0 "b") = .ok t ∧
      letterSession.Reports (.start 0 "b") t w passing .finished news ∧
      ((Call.start 0 "b").diagnostics letterSession).length = 1 ∧ news.length = 1) ∧
    ∀ t, letterSession.perform (.start 1 "b") = .error (.misuse (.unknownRule 1 1), t) →
    t = letterSession := by
  have hwithin : (letterSession.answerWithin 9 (.start 0 "b")).any
      (fun r => r.isFinished && r.failures.length == 1) = true := by decide +kernel
  obtain ⟨t, ht, hp⟩ := (Option.any_eq_true _ _).1 hwithin
  obtain ⟨hfinished, hcount⟩ := (Bool.and_eq_true _ _).mp hp
  have hperform : letterSession.perform (.start 0 "b") = .ok t :=
    mapError_eq_ok.1 ((call_reports letterSession (.start 0 "b")).1.trans (start_of_within ht))
  obtain ⟨w, passing, e, news, hreports⟩ :=
    (call_reports letterSession (.start 0 "b")).2.1 t hperform
  obtain rfl := hreports.finished.2 hfinished
  refine ⟨⟨t, w, passing, news, hperform, hreports, by decide +kernel, ?_⟩, fun t h =>
    (call_reports letterSession (.start 1 "b")).2.2 _ t h⟩
  have hfailures : t.failures = news := by
    rw [Session.failures, hreports.walker]
    exact hreports.failures
  rw [← hfailures]
  exact beq_iff_eq.1 hcount

end Session

end GrammarWalk
