import GrammarWalk.Proofs.Debug.Breakpoints
import GrammarWalk.Proofs.Debug.Events

/-! What a session announces about its breakpoints. A breakpoint that is offered to the rules is
bound or stays as it was asked for, and each that is bound is announced. So a start announces the
breakpoints that were bound before it once more, and leaves them as they are; and no run binds or
announces any. -/

namespace GrammarWalk

namespace Breakpoint

/-- The breakpoint as it was asked for. -/
def asked (b : Breakpoint) : Breakpoint :=
  { b with validated := false, state := none, line := b.requestedLine }

def offered (net : Network) (grammar : Grammar) (b : Breakpoint) : Breakpoint :=
  (Breakpoints.bind? net grammar b).getD b

variable {net : Network} {grammar : Grammar} {b : Breakpoint}

theorem offered_keeps (net : Network) (grammar : Grammar) (b : Breakpoint) :
    (b.offered net grammar).id = b.id ∧
    (b.offered net grammar).requestedLine = b.requestedLine ∧
    (b.offered net grammar).asked = b.asked := by
  rw [offered]
  cases hbind : Breakpoints.bind? net grammar b with
  | none => exact ⟨rfl, rfl, rfl⟩
  | some b' =>
    obtain ⟨-, -, rule, start, info, -, -, -, rfl⟩ := Breakpoints.bind?_eq_some.1 hbind
    exact ⟨rfl, rfl, rfl⟩

theorem bind?_eq (net : Network) (grammar : Grammar) (h : b.validated = false) :
    Breakpoints.bind? net grammar b =
    if (b.offered net grammar).validated then some (b.offered net grammar) else none := by
  rw [offered]
  cases hbind : Breakpoints.bind? net grammar b with
  | none => simp [h]
  | some b' =>
    obtain ⟨-, -, rule, start, info, -, -, -, rfl⟩ := Breakpoints.bind?_eq_some.1 hbind
    rfl

end Breakpoint

namespace Breakpoints

variable {net : Network} {grammar : Grammar} {bs : Breakpoints} {b : Breakpoint}
  {done rest : List Breakpoint}

theorem validate_of_append (net : Network) (grammar : Grammar)
    (hbs : bs.entries = done ++ b :: rest) (hids : bs.entries.Pairwise (·.id < ·.id)) :
    (bs.validate net grammar b.id).1 = bind? net grammar b ∧
      (bs.validate net grammar b.id).2.entries = done ++ b.offered net grammar :: rest := by
  rw [hbs, List.pairwise_append, List.pairwise_cons] at hids
  obtain ⟨-, ⟨hrest, -⟩, hdone⟩ := hids
  have hbefore : ∀ x ∈ done, x.id ≠ b.id :=
    fun x hx => Nat.ne_of_lt (hdone x hx b List.mem_cons_self)
  have hafter : ∀ x ∈ rest, x.id ≠ b.id := fun x hx => Nat.ne_of_gt (hrest x hx)
  have hget : bs.get? b.id = some b := by
    rw [get?, hbs, List.find?_append, List.find?_eq_none.2 (by simpa using hbefore)]
    simp
  rw [validate, hget, Option.bind_some, Breakpoint.offered]
  cases bind? net grammar b with
  | none => exact ⟨rfl, hbs⟩
  | some b' =>
    refine ⟨rfl, ?_⟩
    have hkept {l : List Breakpoint} (h : ∀ x ∈ l, x.id ≠ b.id) :
        l.map (fun old => if old.id = b.id then b' else old) = l :=
      (List.map_congr_left fun x hx => if_neg (h x hx)).trans (List.map_id' l)
    simp only [hbs, List.map_append, List.map_cons, hkept hbefore, hkept hafter, if_pos,
      Option.getD_some]

theorem foldl_validate_of_append (net : Network) (grammar : Grammar) (bound : List Breakpoint)
    (hbs : bs.entries = done ++ rest)
    (hids : bs.entries.Pairwise (·.id < ·.id)) :
    let offers := (rest.map (·.id)).foldl (fun (bound, bs) id =>
      let (b, bs) := bs.validate net grammar id
      (bound ++ b.toList, bs)) (bound, bs)
    offers.1 = bound ++ rest.filterMap (bind? net grammar) ∧
      offers.2.entries = done ++ rest.map (·.offered net grammar) ∧
      offers.2.issued = bs.issued := by
  induction rest generalizing done bound bs with
  | nil => simp [hbs]
  | cons b rest ih =>
    obtain ⟨hfirst, hentries⟩ := validate_of_append net grammar hbs hids
    have hids' : (bs.validate net grammar b.id).2.entries.Pairwise (·.id < ·.id) := by
      rw [← List.pairwise_map (f := Breakpoint.id) (R := (· < ·)), ids_validate, List.pairwise_map]
      exact hids
    obtain ⟨hbound, hoffered, hissued⟩ := ih (bound ++ (bind? net grammar b).toList)
      (hentries.trans (List.append_cons done _ rest)) hids'
    simp only [List.map_cons, List.foldl_cons, hfirst]
    refine ⟨hbound.trans ?_, hoffered.trans ?_, hissued.trans issued_validate⟩
    · cases hbind : bind? net grammar b <;> simp [hbind]
    · simp

/-- The breakpoints have increasing ids, and each of them has been offered. -/
structure Settled (net : Network) (grammar : Grammar) (bs : Breakpoints) : Prop where
  increasing : bs.entries.Pairwise (·.id < ·.id)
  issued : ∀ b ∈ bs.entries, b.id ≤ bs.issued
  offered : ∀ b ∈ bs.entries, b.asked.offered net grammar = b

theorem settled_of_nil (h : bs.entries = []) : Settled net grammar bs := by
  constructor <;> simp [h]

theorem Settled.congr {bs' : Breakpoints} (h : Settled net grammar bs)
    (hentries : bs'.entries = bs.entries) (hissued : bs'.issued = bs.issued) :
    Settled net grammar bs' :=
  ⟨hentries ▸ h.increasing, hentries ▸ hissued ▸ h.issued, hentries ▸ h.offered⟩

/-- A breakpoint that is added and offered at once comes behind the others, and they stay
settled. -/
theorem Settled.validate_add (h : Settled net grammar bs) (source : String) (line : Nat) :
    let asked := (bs.add source line).1
    let result := (bs.add source line).2.validate net grammar asked.id
    result.1 = bind? net grammar asked ∧ result.2.entries = bs.entries ++
      [asked.offered net grammar] ∧
      Settled net grammar result.2 := by
  intro asked result
  have hids : (bs.add source line).2.entries.Pairwise (·.id < ·.id) := by
    refine List.pairwise_append.2 ⟨h.increasing, List.pairwise_singleton _ _, fun x hx y hy => ?_⟩
    rw [List.mem_singleton.1 hy]
    exact Nat.lt_succ_of_le (h.issued x hx)
  obtain ⟨hbind, hentries⟩ := validate_of_append net grammar (b := asked)
    (show (bs.add source line).2.entries = bs.entries ++ asked :: [] from rfl) hids
  obtain ⟨hid, -, hasked⟩ := asked.offered_keeps net grammar
  have hids' : result.2.entries.Pairwise (·.id < ·.id) := by
    rw [← List.pairwise_map (f := Breakpoint.id) (R := (· < ·)), ids_validate, List.pairwise_map]
    exact hids
  refine ⟨hbind, hentries, hids', ?_, ?_⟩
  · rw [hentries, show result.2.issued = bs.issued + 1 from issued_validate]
    intro x hx
    obtain hx | hx := List.mem_append.1 hx
    · exact Nat.le_succ_of_le (h.issued x hx)
    · exact Nat.le_of_eq (List.mem_singleton.1 hx ▸ hid)
  · rw [hentries]
    intro x hx
    obtain hx | hx := List.mem_append.1 hx
    · exact h.offered x hx
    · rw [List.mem_singleton.1 hx, hasked]
      rfl

/-- To offer all breakpoints anew binds those that were bound, and leaves all as they were. -/
theorem Settled.validateAll_reset (h : Settled net grammar bs) :
    (bs.reset.validateAll net grammar).1 = bs.entries.filter (·.validated) ∧
      (bs.reset.validateAll net grammar).2.entries = bs.entries ∧
      (bs.reset.validateAll net grammar).2.issued = bs.issued := by
  have hids : bs.reset.entries.Pairwise (·.id < ·.id) := List.pairwise_map.2 h.increasing
  obtain ⟨hbound, hentries, hissued⟩ := foldl_validate_of_append net grammar []
    (List.nil_append bs.reset.entries).symm hids
  refine ⟨hbound.trans ?_, hentries.trans ?_, hissued⟩
  · rw [List.nil_append, reset, List.filterMap_map, ← List.filterMap_eq_filter]
    refine List.filterMap_congr fun b hb => ?_
    have hbind := Breakpoint.bind?_eq net grammar (b := b.asked) rfl
    rw [h.offered b hb] at hbind
    exact hbind.trans (by rw [Option.guard])
  · rw [List.nil_append, reset, List.map_map]
    exact (List.map_congr_left h.offered).trans (List.map_id' _)

end Breakpoints

def Event.binding? : Event → Option Breakpoint
  | bound b => some b
  | finished | hit _ | stepped _ | output .. => none

def bindings (events : List Event) : List Breakpoint := events.filterMap Event.binding?

@[simp] theorem bindings_append (a b : List Event) : bindings (a ++ b) = bindings a ++ bindings b :=
  List.filterMap_append

theorem bindings_bound (bs : List Breakpoint) : bindings (bs.map .bound) = bs := by
  rw [bindings, List.filterMap_map]
  exact List.filterMap_some

namespace Session

variable {s t u : Session} {w : Walker} {run : Run} {stop : Bool} {new new' : List Breakpoint}

section asking

/-- The breakpoints `new` were asked for, and those of them that are bound were announced. -/
structure Asks (s t : Session) (new : List Breakpoint) : Prop where
  parser : t.parser = s.parser
  grammar : t.grammar = s.grammar
  walker : t.walker = s.walker
  entries : t.breakpoints.entries = s.breakpoints.entries ++ new
  events : t.events.events = s.events.events ++ (new.filter (·.validated)).map .bound
  settled : t.breakpoints.Settled t.parser t.grammar

theorem asks_nothing (h : s.breakpoints.Settled s.parser s.grammar) : s.Asks s [] :=
  ⟨rfl, rfl, rfl, (List.append_nil _).symm, (List.append_nil _).symm, h⟩

theorem Asks.trans (h : s.Asks t new) (h' : t.Asks u new') : s.Asks u (new ++ new') where
  parser := h'.parser.trans h.parser
  grammar := h'.grammar.trans h.grammar
  walker := h'.walker.trans h.walker
  entries := by rw [h'.entries, h.entries, List.append_assoc]
  events := by rw [h'.events, h.events, List.append_assoc, List.filter_append, List.map_append]
  settled := h'.settled

theorem addBreakpoint_asks (h : s.breakpoints.Settled s.parser s.grammar) (source : String)
    (line : Nat) :
    (s.addBreakpoint source line).1.requestedLine = line ∧
      s.Asks (s.addBreakpoint source line).2 [(s.addBreakpoint source line).1] := by
  let asked := (s.breakpoints.add source line).1
  obtain ⟨hbind, hentries, hsettled⟩ := h.validate_add source line
  have hline : (asked.offered s.parser s.grammar).requestedLine = line :=
    (asked.offered_keeps _ _).2.1
  have hoffered : asked.offered s.parser s.grammar =
    (Breakpoints.bind? s.parser s.grammar asked).getD asked := rfl
  unfold addBreakpoint
  cases hresult : (s.breakpoints.add source line).2.validate s.parser s.grammar asked.id with
  | mk bound bs =>
    simp only [asked] at hresult
    simp only [hresult] at hbind hentries hsettled ⊢
    cases bound with
    | some b =>
      obtain rfl : asked.offered s.parser s.grammar = b := by rw [hoffered, ← hbind]; rfl
      have hv := (Breakpoints.bound_of_bind? hbind.symm).validated
      exact ⟨hline, rfl, rfl, rfl, hentries, by simp [hv, report, EventQueue.push], hsettled⟩
    | none =>
      have hsame : asked.offered s.parser s.grammar = asked := by rw [hoffered, ← hbind]; rfl
      rw [hsame] at hentries
      exact ⟨rfl, rfl, rfl, rfl, hentries, (List.append_nil _).symm, hsettled⟩

end asking

section running

/-- The breakpoints and what they are bound to stay as they are, and none is announced. -/
structure Quiet (s t : Session) : Prop where
  parser : t.parser = s.parser
  grammar : t.grammar = s.grammar
  breakpoints : t.breakpoints = s.breakpoints
  bindings : bindings t.events.events = bindings s.events.events

theorem Quiet.refl (s : Session) : s.Quiet s := ⟨rfl, rfl, rfl, rfl⟩

theorem Quiet.trans (h : s.Quiet t) (h' : t.Quiet u) : s.Quiet u :=
  ⟨h'.parser.trans h.parser, h'.grammar.trans h.grammar, h'.breakpoints.trans h.breakpoints,
    h'.bindings.trans h.bindings⟩

theorem quiet_move {walker : Option Walker} {callStack : CallStack} :
    s.Quiet { s with walker, callStack } :=
  ⟨rfl, rfl, rfl, rfl⟩

theorem quiet_report {e : Event} (h : e.binding? = none) : s.Quiet (s.report e) :=
  ⟨rfl, rfl, rfl, by simp [report, EventQueue.push, GrammarWalk.bindings, h]⟩

theorem quiet_stopIf {e : Event} {b : Bool} (he : e.binding? = none)
    (h : s.stopIf b e = (stop, t)) : s.Quiet t := by
  obtain ⟨rfl, rfl⟩ := Prod.mk.inj h
  split
  · exact quiet_report he
  · exact .refl s

theorem quiet_moveAlong {st : State} (h : s.moveAlong st = .ok t) : s.Quiet t := by
  obtain rfl | ⟨f, rest, next, -, rfl⟩ := moveAlong_cases h
  · exact .refl _
  · exact ⟨rfl, rfl, rfl, rfl⟩

theorem quiet_takeEdge (h : s.takeEdge w = .ok t) : s.Quiet t := by
  rw [takeEdge, bind_eq_ok] at h
  obtain ⟨r, -, h⟩ := h
  split at h
  · exact pure_eq_ok.1 h ▸ quiet_move
  · rename_i f
    simp only [bind_eq_ok, pure_eq_ok] at h
    obtain ⟨w', -, rfl⟩ := h
    exact (quiet_report (e := f.event w.tokens s.grammar) rfl).trans quiet_move

theorem quiet_leaveRule {p : Nat} (h : s.leaveRule run w p = .ok (stop, t)) : s.Quiet t := by
  rw [leaveRule, bind_eq_ok] at h
  obtain ⟨root, -, h⟩ := h
  split at h
  · simp only [bind_eq_ok, pure_eq_ok] at h
    obtain ⟨w', -, h⟩ := h
    exact quiet_move.trans (quiet_stopIf rfl h)
  · simp only [bind_eq_ok, pure_eq_ok] at h
    obtain ⟨w', -, h⟩ := h
    exact quiet_move.trans (quiet_stopIf rfl h)

theorem quiet_passState {st : State} {p : Nat} (h : s.passState run w st p = .ok (stop, t)) :
    s.Quiet t := by
  rw [passState, bind_eq_ok] at h
  obtain ⟨u, hu, h⟩ := h
  have hframe : s.Quiet (if st.isRuleStart then s.pushFrame (st.rule.getD 0) else s) := by
    split <;> exact ⟨rfl, rfl, rfl, rfl⟩
  have hedge := hframe.trans (quiet_takeEdge hu)
  split at h
  · exact hedge.trans (quiet_stopIf rfl (pure_eq_ok.1 h))
  · exact hedge.trans (quiet_stopIf rfl (pure_eq_ok.1 h))

theorem quiet_step (h : s.step run w = .ok (stop, t)) : s.Quiet t := by
  simp only [step, bind_eq_ok] at h
  obtain ⟨st, -, u, hu, h⟩ := h
  split at h
  · exact (quiet_moveAlong hu).trans (quiet_leaveRule h)
  · exact (quiet_moveAlong hu).trans (quiet_passState h)

theorem quiet_resume {mode : RunMode} (h : s.resume mode = .ok t) : s.Quiet t := by
  obtain ⟨w, hw, ⟨-, rfl⟩ | ⟨hf, st, -, hrun⟩⟩ := resume_cases h
  · exact quiet_report rfl
  · obtain ⟨u, v, hu, -, -, hlast⟩ :=
      run_keeps (I := s.Quiet) (fun ha _ _ hstep => ha.trans (quiet_step hstep)) (.refl s)
      hw hf hrun
    exact hu.trans (quiet_step hlast)

theorem start_announces {rule : Nat} {input : String}
    (hs : s.breakpoints.Settled s.parser s.grammar) (h : s.start rule input = .ok t) :
    t.parser = s.parser ∧ t.grammar = s.grammar ∧
      t.breakpoints.entries = s.breakpoints.entries ∧ t.breakpoints.issued = s.breakpoints.issued ∧
      bindings t.events.events = bindings s.events.events ++ s.breakpoints.entries.filter
      (·.validated) := by
  simp only [start, bind_eq_ok] at h
  obtain ⟨⟨w, u⟩, hu, h⟩ := h
  have hrun : u.Quiet t := by
    split at h
    · exact pure_eq_ok.1 h ▸ quiet_report rfl
    · exact quiet_resume h
  obtain ⟨-, tokens, diagnostics, -, -, rfl⟩ := enter_eq_ok hu
  obtain ⟨hbound, hentries, hissued⟩ := hs.validateAll_reset
  rw [hrun.breakpoints, hrun.bindings]
  refine ⟨hrun.parser, hrun.grammar, hentries, hissued, ?_⟩
  have hdiagnostics := EventQueue.events_foldl Diagnostic.event diagnostics s.events
  have hnone : bindings (diagnostics.map Diagnostic.event) = [] := by
    rw [bindings, List.filterMap_map]
    exact List.filterMap_eq_nil_iff.2 fun d _ => rfl
  rw [EventQueue.events_foldl, hbound, bindings_append, bindings_bound]
  refine congrArg (· ++ _) ?_
  refine (congrArg bindings hdiagnostics).trans ?_
  rw [bindings_append, hnone, List.append_nil]

end running

end Session

end GrammarWalk
