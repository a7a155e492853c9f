import GrammarWalk.Proofs.Debug.Bindings
import GrammarWalk.Proofs.Debug.Parses
import GrammarWalk.Workbench.View

/-! The workbench shows the session as it is. It keeps its own lines of breakpoints and its own word
on how far the parse has come, and changes them only as it takes what the session reports. So each
key has to leave nothing unreported, and each report has to say the whole of what has changed. -/

namespace GrammarWalk

section sorted

variable {n m : Nat} {l : List Nat}

theorem mem_insertSorted : m ∈ insertSorted n l ↔ m = n ∨ m ∈ l := by
  induction l with
  | nil => simp [insertSorted]
  | cons k l ih =>
    rw [insertSorted]
    split
    · exact List.mem_cons
    · split
      · simp [*]
      · rw [List.mem_cons, List.mem_cons, ih]
        exact or_left_comm

theorem pairwise_insertSorted (h : l.Pairwise (· < ·)) : (insertSorted n l).Pairwise (· < ·) := by
  induction l with
  | nil => exact List.pairwise_singleton _ _
  | cons k l ih =>
    obtain ⟨hk, hl⟩ := List.pairwise_cons.1 h
    rw [insertSorted]
    split
    · rename_i hn
      refine List.pairwise_cons.2 ⟨fun m hm => ?_, h⟩
      obtain rfl | hm := List.mem_cons.1 hm
      · exact hn
      · exact Nat.lt_trans hn (hk m hm)
    · split
      · exact h
      · refine List.pairwise_cons.2 ⟨fun m hm => ?_, ih hl⟩
        obtain rfl | hm := mem_insertSorted.1 hm
        · omega
        · exact hk m hm

end sorted

/-- Some breakpoint of the session is bound and shown on the line. -/
def Session.Shows (s : Session) (line : Nat) : Prop :=
  ∃ b ∈ s.breakpoints.entries, b.validated = true ∧ b.line = line

/-- How far the parse has come after an event, if it had come so far before it. -/
def Progress.after (p : Progress) : Event → Progress
  | .finished => finished
  | .hit _ => atBreakpoint
  | .stepped _ => stopped
  | .bound _ | .output .. => p

theorem Progress.foldl_after {events : List Event} {p : Progress}
    (h : ∀ e ∈ events, e.isStop = false) : events.foldl after p = p := by
  induction events with
  | nil => rfl
  | cons e events ih =>
    have hfirst : p.after e = p := by
      have he := h e List.mem_cons_self
      cases e with
      | bound | output => rfl
      | finished | hit | stepped => cases he
    rw [List.foldl_cons, hfirst]
    exact ih fun e he => h e (List.mem_cons_of_mem _ he)

theorem Progress.after_of_stop {e : Event} {p : Progress} (h : e.isStop = true) :
    p.after e = .finished ↔ e = .finished := by
  cases e with
  | bound | output => cases h
  | finished | hit | stepped => simp [Progress.after]

namespace Workbench

variable {w w' : Workbench}

section taking

/-- The workbench has taken some events: those that announce a breakpoint went into the lines, and
those that end a run into the progress. -/
structure Took (w : Workbench) (events : List Event) (w' : Workbench) : Prop where
  session : w'.session = w.session
  text : w'.text = w.text
  requested : w'.requested = w.requested
  cursor : w'.cursor = w.cursor
  lines : ∀ line, line ∈ w'.breakpointLines ↔ line ∈ w.breakpointLines ∨
    ∃ b ∈ bindings events, b.line = line
  ascending : w.breakpointLines.Pairwise (· < ·) → w'.breakpointLines.Pairwise (· < ·)
  progress : w'.progress = events.foldl Progress.after w.progress

theorem took_report {e : Event} (h : w.report e = .ok w') : w.Took [e] w' := by
  cases e with
  | finished =>
    simp only [report, bind_eq_ok, pure_eq_ok] at h
    obtain ⟨tree, -, rfl⟩ := h
    exact ⟨rfl, rfl, rfl, rfl, by simp [bindings, Event.binding?], id, rfl⟩
  | hit | stepped | output =>
    obtain rfl := pure_eq_ok.1 h
    exact ⟨rfl, rfl, rfl, rfl, by simp [bindings, Event.binding?], id, rfl⟩
  | bound b =>
    obtain rfl := pure_eq_ok.1 h
    refine ⟨rfl, rfl, rfl, rfl, fun line => ?_, pairwise_insertSorted, rfl⟩
    simp [bindings, Event.binding?, mem_insertSorted, or_comm, eq_comm]

theorem took_foldlM {events : List Event} (h : events.foldlM report w = .ok w') :
    w.Took events w' := by
  induction events generalizing w with
  | nil =>
    obtain rfl := pure_eq_ok.1 h
    exact ⟨rfl, rfl, rfl, rfl, by simp [bindings], id, rfl⟩
  | cons e events ih =>
    rw [List.foldlM_cons, bind_eq_ok] at h
    obtain ⟨v, hv, h⟩ := h
    have hfirst := took_report hv
    have hrest := ih h
    refine ⟨hrest.session.trans hfirst.session, hrest.text.trans hfirst.text,
      hrest.requested.trans hfirst.requested, hrest.cursor.trans hfirst.cursor, fun line =>
      ?_, hrest.ascending ∘ hfirst.ascending, ?_⟩
    · rw [hrest.lines, hfirst.lines, show bindings (e :: events) = bindings [e] ++ bindings events
        from bindings_append [e] events]
      simp only [List.mem_append, or_and_right, exists_or, or_assoc]
    · rw [hrest.progress, hfirst.progress]
      rfl

theorem took_takeEvents (h : w.takeEvents = .ok w') :
    { w with session := w.session.drainEvents.2 }.Took w.session.events.events w' := by
  simp only [takeEvents, bind_eq_ok, pure_eq_ok] at h
  obtain ⟨v, hv, rfl⟩ := h
  have htook := took_foldlM hv
  exact ⟨htook.session, htook.text, htook.requested, htook.cursor, htook.lines, htook.ascending,
    htook.progress⟩

end taking

/-- What is done with a workbench: to start the session, to press a key, and to draw the panels on a
screen of some size. -/
inductive Action
  | start
  | press (key : Key)
  | draw (width height : Nat)
deriving DecidableEq, Repr, Inhabited

def act (w : Workbench) : Action → Except Fault Workbench
  | .start => w.start.map (·.2)
  | .press key => w.press key
  | .draw width height => (w.draw width height).map (·.2)

/-- The workbench lists what its session is asked for, and its cursor is on a line of the text. -/
structure Attends (w : Workbench) : Prop where
  /-- The breakpoints of the session are those asked for, in order. -/
  requested : w.session.breakpoints.entries.map (·.requestedLine) = w.requested
  ascending : w.requested.Pairwise (· < ·)
  cursor : 1 ≤ w.cursor ∧ w.cursor ≤ max 1 (Text.lines w.text).length

/-- The workbench shows the breakpoints of its session, and has taken all that was reported. -/
structure Mirrors (w : Workbench) : Prop where
  /-- The lines shown are those of the bound breakpoints. -/
  shown : ∀ line, line ∈ w.breakpointLines ↔ w.session.Shows line
  ascending : w.breakpointLines.Pairwise (· < ·)
  drained : w.session.events.events = []

/-- The workbench shows a finished parse exactly if the parse is finished. -/
def Tells (w : Workbench) : Prop := w.progress = .finished ↔ w.session.isFinished = true

/-- The parse is still the one from before, and the workbench shows what it showed then. -/
def Untouched (old : Option Walker) (w : Workbench) : Prop :=
  w.progress = .stopped ∧ w.session.walker = old

variable {fresh : Prop} {old : Option Walker}

/-- The workbench attends its session, in which each breakpoint has been offered to the rules. It
mirrors a session that was `fresh`, and shows the progress of a parse other than the `old` one. -/
structure Synced (fresh : Prop) (old : Option Walker) (w : Workbench) : Prop extends Attends w where
  settled : w.session.breakpoints.Settled w.session.parser w.session.grammar
  mirrors : fresh → w.Mirrors
  tells : fresh → w.Tells ∨ w.Untouched old

theorem Synced.congr (hw : Synced fresh old w) (hsession : w'.session = w.session)
    (hrequested : w'.requested = w.requested) (hlines : w'.breakpointLines = w.breakpointLines)
    (hprogress : w'.progress = w.progress)
    (hcursor : 1 ≤ w'.cursor ∧ w'.cursor ≤ max 1 (Text.lines w'.text).length) :
    Synced fresh old w' where
  requested := by rw [hsession, hrequested, hw.requested]
  ascending := hrequested ▸ hw.ascending
  cursor := hcursor
  settled := hsession ▸ hw.settled
  mirrors hf := by
    have hm := hw.mirrors hf
    exact ⟨by rw [hsession, hlines]; exact hm.shown, hlines ▸ hm.ascending, hsession ▸ hm.drained⟩
  tells hf := by
    rw [Tells, Untouched, hsession, hprogress]
    exact hw.tells hf

section keys

/-- The workbench is in step up to the reports that it has not taken. -/
structure Behind (fresh : Prop) (old : Option Walker) (w : Workbench) : Prop extends Attends w where
  settled : w.session.breakpoints.Settled w.session.parser w.session.grammar
  shown : fresh → ∀ line, w.session.Shows line ↔
    line ∈ w.breakpointLines ∨ ∃ b ∈ bindings w.session.events.events, b.line = line
  shownAscending : fresh → w.breakpointLines.Pairwise (· < ·)
  tells : fresh → (w.session.events.events.foldl Progress.after w.progress = .finished ↔
    w.session.isFinished = true) ∨
    w.session.events.events.foldl Progress.after w.progress = .stopped ∧ w.session.walker = old

theorem Behind.synced (hw : Behind fresh old w) (h : w.takeEvents = .ok w') :
    Synced fresh old w' ∧ w'.text = w.text := by
  have htook := took_takeEvents h
  have hsession : w'.session = w.session.drainEvents.2 := htook.session
  have hattends : w'.Attends := by
    refine ⟨?_, ?_, ?_⟩
    · rw [hsession, htook.requested]
      exact hw.requested
    · rw [htook.requested]
      exact hw.ascending
    · rw [htook.text, htook.cursor]
      exact hw.cursor
  refine ⟨⟨hattends, hsession ▸ hw.settled, fun hf => ⟨fun line => ?_, ?_, hsession ▸ rfl⟩,
    fun hf => ?_⟩, htook.text⟩
  · rw [hsession, htook.lines]
    exact (hw.shown hf line).symm
  · exact htook.ascending (hw.shownAscending hf)
  · rw [Tells, Untouched, hsession, htook.progress]
    exact hw.tells hf

/-- A call that leaves the breakpoints as they were, and announces none but bound ones, leaves the
workbench behind by its reports only. The last of these tells how far the parse has come. -/
theorem Synced.behind {t : Session} {c : Session.Call} {v : Walker} {passing : List Event}
    {e : Event} {news : List Failure} {bound : List Breakpoint} (hw : Synced fresh old w)
    (output : List Message) (hparser : t.parser = w.session.parser)
    (hgrammar : t.grammar = w.session.grammar)
    (hentries : t.breakpoints.entries = w.session.breakpoints.entries)
    (hissued : t.breakpoints.issued = w.session.breakpoints.issued)
    (hannounced : bindings t.events.events = bindings w.session.events.events ++ bound)
    (hbound : ∀ b ∈ bound, b ∈ w.session.breakpoints.entries ∧ b.validated = true)
    (hreports : w.session.Reports c t v passing e news) :
    Behind fresh old { w with session := t, output } where
  requested := (congrArg _ hentries).trans hw.requested
  ascending := hw.ascending
  cursor := hw.cursor
  settled := by
    show t.breakpoints.Settled t.parser t.grammar
    rw [hparser, hgrammar]
    exact hw.settled.congr hentries hissued
  shown hf line := by
    show t.Shows line ↔ line ∈ w.breakpointLines ∨ ∃ b ∈ bindings t.events.events, b.line = line
    rw [(hw.mirrors hf).shown, Session.Shows, hentries, hannounced, (hw.mirrors hf).drained]
    refine ⟨.inl, fun h => h.elim id ?_⟩
    rintro ⟨b, hb, hline⟩
    exact ⟨b, (hbound b hb).1, (hbound b hb).2, hline⟩
  shownAscending hf := (hw.mirrors hf).ascending
  tells hf := .inl <| by
    show t.events.events.foldl Progress.after w.progress = .finished ↔ t.isFinished = true
    rw [← hreports.finished, hreports.events, (hw.mirrors hf).drained, List.nil_append,
      List.foldl_append]
    exact Progress.after_of_stop hreports.stop

theorem synced_resume {mode : RunMode} (hw : Synced fresh old w) (h : w.resume mode = .ok w') :
    Synced fresh old w' ∧ w'.text = w.text := by
  unfold resume at h
  split at h
  · rename_i t ht
    obtain ⟨v, passing, e, news, hreports⟩ := Session.resume_reports ht
    have hquiet := Session.quiet_resume ht
    have hannounced := hquiet.bindings.trans (List.append_nil _).symm
    have hbehind := hw.behind w.output hquiet.parser hquiet.grammar (congrArg _ hquiet.breakpoints)
      (congrArg _ hquiet.breakpoints) hannounced nofun hreports
    exact hbehind.synced h
  · obtain rfl := pure_eq_ok.1 h
    exact ⟨hw.congr rfl rfl rfl rfl hw.cursor, rfl⟩
  · cases h

theorem synced_start {refusal : Option Misuse} (hw : Synced fresh old w)
    (h : w.start = .ok (refusal, w')) : Synced fresh old w' ∧ w'.text = w.text := by
  simp only [start] at h
  split at h
  · rename_i t ht
    simp only [bind_eq_ok, pure_eq_ok, Prod.mk.injEq] at h
    obtain ⟨v, hv, -, rfl⟩ := h
    obtain ⟨_, passing, e, news, hreports⟩ := Session.start_reports ht
    obtain ⟨hparser, hgrammar, hentries, hissued, hannounced⟩ :=
      Session.start_announces hw.settled ht
    have hbehind := hw.behind [] hparser hgrammar hentries hissued hannounced
      (fun b hb => List.mem_filter.1 hb) hreports
    exact hbehind.synced hv
  · obtain ⟨-, rfl⟩ := Prod.mk.inj (pure_eq_ok.1 h)
    exact ⟨hw.congr rfl rfl rfl rfl hw.cursor, rfl⟩
  · cases h

theorem Synced.refused (hw : Synced fresh old w) (m : Misuse) : Synced fresh old (w.refused m) :=
  hw.congr rfl rfl rfl rfl hw.cursor

theorem synced_restart (hw : Synced fresh old w) (h : w.restart = .ok w') :
    Synced fresh old w' ∧ w'.text = w.text := by
  simp only [restart, bind_eq_ok, pure_eq_ok] at h
  obtain ⟨⟨refusal, v⟩, hv, rfl⟩ := h
  obtain ⟨hsynced, htext⟩ := synced_start hw hv
  cases refusal with
  | none => exact ⟨hsynced, htext⟩
  | some m => exact ⟨hsynced.refused m, htext⟩

theorem addBreakpoints_asks {s : Session} (h : s.breakpoints.Settled s.parser s.grammar)
    (source : String) (lines : List Nat) :
    ∃ new, new.map (·.requestedLine) = lines ∧ s.Asks (addBreakpoints s source lines).2 new := by
  unfold addBreakpoints
  generalize 0 = unbound
  induction lines generalizing s unbound with
  | nil => exact ⟨[], rfl, Session.asks_nothing h⟩
  | cons line lines ih =>
    obtain ⟨hline, hfirst⟩ := Session.addBreakpoint_asks h source line
    obtain ⟨new, hlines, hrest⟩ := ih hfirst.settled _
    exact ⟨_ :: new, congrArg₂ List.cons hline hlines, hfirst.trans hrest⟩

theorem pairwise_toggled {line : Nat} {requested : List Nat} (h : requested.Pairwise (· < ·)) :
    (if requested.contains line then requested.erase line else insertSorted line requested).Pairwise
    (· < ·) := by
  split
  · exact h.sublist List.erase_sublist
  · exact pairwise_insertSorted h

/-- Breakpoints that are asked for in place of the old ones leave the workbench behind by their
announcements only, if its lines are cleared. -/
theorem Synced.behind_asks {t : Session} {new : List Breakpoint} {requested : List Nat}
    (hw : Synced fresh old w) (hlines : new.map (·.requestedLine) = requested)
    (hasks : w.session.clearBreakpoints.Asks t new) (hascending : requested.Pairwise (· < ·)) :
    Behind fresh old { w with session := t, requested, breakpointLines := [] } := by
  have hentries : t.breakpoints.entries = new := hasks.entries.trans (List.nil_append new)
  have hevents (hf : fresh) : t.events.events = (new.filter (·.validated)).map .bound := by
    rw [hasks.events]
    exact (congrArg (· ++ _) (hw.mirrors hf).drained).trans (List.nil_append _)
  have hpassing (hf : fresh) : ∀ e ∈ t.events.events, e.isStop = false := by
    rw [hevents hf]
    intro e he
    obtain ⟨b, -, rfl⟩ := List.mem_map.1 he
    rfl
  refine ⟨⟨?_, hascending, hw.cursor⟩, hasks.settled, fun hf line => ?_,
    fun _ => .nil, fun hf => ?_⟩
  · show t.breakpoints.entries.map (·.requestedLine) = requested
    rw [hentries, hlines]
  · show t.Shows line ↔ line ∈ [] ∨ ∃ b ∈ bindings t.events.events, b.line = line
    rw [hevents hf, bindings_bound, Session.Shows, hentries]
    simp [and_assoc]
  · show (t.events.events.foldl Progress.after w.progress = .finished ↔ t.isFinished = true) ∨
      t.events.events.foldl Progress.after w.progress = .stopped ∧ t.walker = old
    rw [Progress.foldl_after (hpassing hf), Session.isFinished, hasks.walker]
    exact hw.tells hf

theorem synced_toggle (hw : Synced fresh old w) (h : w.toggleBreakpoint = .ok w') :
    Synced fresh old w' ∧ w'.text = w.text := by
  simp only [toggleBreakpoint, bind_eq_ok, pure_eq_ok] at h
  obtain ⟨v, hv, rfl⟩ := h
  have hcleared :
      w.session.clearBreakpoints.breakpoints.Settled w.session.parser w.session.grammar :=
    Breakpoints.settled_of_nil rfl
  obtain ⟨new, hlines, hasks⟩ :=
    addBreakpoints_asks (s := w.session.clearBreakpoints) hcleared w.session.grammar.source _
  obtain ⟨hsynced, htext⟩ := (hw.behind_asks hlines hasks (pairwise_toggled hw.ascending)).synced hv
  exact ⟨hsynced.congr rfl rfl rfl rfl hsynced.cursor, htext⟩

theorem synced_moveUp (hw : Synced fresh old w) :
    Synced fresh old w.moveUp ∧ w.moveUp.text = w.text := by
  unfold moveUp
  cases w.focus with
  | source =>
    have := hw.cursor
    refine ⟨hw.congr rfl rfl rfl rfl ?_, rfl⟩
    dsimp only
    omega
  | output | stack | tokens => exact ⟨hw.congr rfl rfl rfl rfl hw.cursor, rfl⟩

theorem synced_moveDown (hw : Synced fresh old w) :
    Synced fresh old w.moveDown ∧ w.moveDown.text = w.text := by
  unfold moveDown
  cases w.focus with
  | source =>
    have := hw.cursor
    refine ⟨hw.congr rfl rfl rfl rfl ?_, rfl⟩
    dsimp only
    omega
  | output | stack | tokens => exact ⟨hw.congr rfl rfl rfl rfl hw.cursor, rfl⟩

theorem synced_press {key : Key} (hw : Synced fresh old w) (h : w.press key = .ok w') :
    Synced fresh old w' ∧ w'.text = w.text := by
  unfold press at h
  split at h
  · exact pure_eq_ok.1 h ▸ ⟨hw.congr rfl rfl rfl rfl hw.cursor, rfl⟩
  · exact pure_eq_ok.1 h ▸ ⟨hw.congr rfl rfl rfl rfl hw.cursor, rfl⟩
  · exact synced_resume hw h
  · exact synced_resume hw h
  · exact synced_resume hw h
  · exact synced_resume hw h
  · exact synced_resume hw h
  · exact synced_toggle hw h
  · exact synced_restart hw h
  · exact pure_eq_ok.1 h ▸ ⟨hw.congr rfl rfl rfl rfl hw.cursor, rfl⟩
  · exact pure_eq_ok.1 h ▸ synced_moveUp hw
  · exact pure_eq_ok.1 h ▸ synced_moveDown hw
  · exact pure_eq_ok.1 h ▸ ⟨hw, rfl⟩
  · exact pure_eq_ok.1 h ▸ ⟨hw, rfl⟩

theorem synced_draw {width height : Nat} {canvas : Screen.Canvas} (hw : Synced fresh old w)
    (h : w.draw width height = .ok (canvas, w')) : Synced fresh old w' ∧ w'.text = w.text := by
  simp only [draw, bind_eq_ok, pure_eq_ok, Prod.mk.injEq] at h
  obtain ⟨_, -, -, rfl⟩ := h
  exact ⟨hw.congr rfl rfl rfl rfl hw.cursor, rfl⟩

theorem synced_act {a : Action} (hw : Synced fresh old w) (h : w.act a = .ok w') :
    Synced fresh old w' ∧ w'.text = w.text := by
  cases a with
  | start =>
    obtain ⟨⟨refusal, v⟩, hv, rfl⟩ := map_eq_ok.1 h
    exact synced_start hw hv
  | press key => exact synced_press hw h
  | draw width height =>
    obtain ⟨⟨canvas, v⟩, hv, rfl⟩ := map_eq_ok.1 h
    exact synced_draw hw hv

end keys

theorem synced_of_nil {s : Session} (hs : s.breakpoints.entries = []) (text input : String)
    (rule : Nat) : Synced (s.events.events = []) s.walker { session := s, text, input, rule } := by
  have hnone : ∀ line, ¬ s.Shows line := by
    rintro line ⟨b, hb, -⟩
    rw [hs] at hb
    cases hb
  refine ⟨⟨congrArg _ hs, .nil, Nat.le_refl 1, Nat.le_max_left 1 _⟩, Breakpoints.settled_of_nil hs,
    fun hf => ⟨fun line => ?_, .nil, hf⟩, fun _ => .inr ⟨rfl, rfl⟩⟩
  exact iff_of_false List.not_mem_nil (hnone line)

/-- The workbench runs on to the end of the run in at most `n` steps, and has the property then. -/
def continuesWithin (n : Nat) (p : Workbench → Bool) (w : Workbench) : Bool :=
  (w.session.resumeWithin n .normal).any fun s =>
    (takeEvents { w with session := s }).toOption.any p

theorem press_of_within {n : Nat} {p : Workbench → Bool} (h : w.continuesWithin n p = true) :
    ∃ w', w.act (.press (.char 'c')) = .ok w' ∧ p w' = true := by
  obtain ⟨s, hs, h⟩ := (Option.any_eq_true _ _).1 h
  obtain ⟨w', hw', hp⟩ := ok_of_any h
  refine ⟨w', ?_, hp⟩
  show w.resume .normal = .ok w'
  rw [resume, Session.resume_of_within hs]
  exact hw'

/-- A session that stops on entry, over a rule on the second line with a comment on the first. -/
def commented : Session := { Session.letterSession with
  stopOnEntry := true
  grammar := { source := "g",
               rules := #[{ name := "s", declared := 2, range := ⟨⟨1, 0⟩, ⟨2, 9⟩⟩ }] } }

/-- To continue is refused before the start; a breakpoint is asked for on the second line and shown
on the first; and the session is started twice, and continued to the breakpoint and to the end. -/
def keys : List Action :=
  [.press (.char 'c'), .press .down, .press (.char 'b'), .start, .press (.char 'r')] ++
    [.press (.char 'c'), .press (.char 'c')]

/-- A workbench over the session after some calls. -/
def opened (asks : List Session.Ask) : Workbench :=
  { session := asks.foldl Session.answer commented
    text := "// s\ns : 'a' ;\n", input := "a", rule := 0 }

theorem session_opened (asks : List Session.Ask) :
    (opened asks).session = asks.foldl Session.answer commented :=
  rfl

theorem exists_tab (w : Workbench) :
    ∃ w', [.press .tab].foldlM act w = .ok w' ∧ w'.session = w.session ∧
    w'.progress = w.progress :=
  ⟨_, rfl, rfl, rfl⟩

end Workbench

end GrammarWalk
