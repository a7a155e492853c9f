import GrammarWalk.Proofs.Tokenizer.Fold
import GrammarWalk.Proofs.Tokenizer.Fronts
import Mathlib.Data.List.Find

/-! Two lexers that cut texts in the same way: what each of them does, one machine does, if the
threads that the lexer can do without are passed over. A call that is refused because it is too deep
may set them apart. -/

namespace GrammarWalk.Tokenizer

open Network Relation

def machine (net : Network) : Machine where
  toGraph := graph net
  roots := roots net
  sends := sends net

/-- The front after some characters of a match. -/
inductive FrontAfter (net : Network) (mode : Nat) : List Char → Front → Prop
  | start {f : Front} : start net mode = .ok f → FrontAfter net mode [] f
  | step {w : List Char} {c : Char} {f f' : Front} : FrontAfter net mode w f →
      step net f.threads c.toNat = .ok f' → FrontAfter net mode (w ++ [c]) f'

/-- The thread comes to a call, and has as many open as there may be. -/
def Refused (net : Network) (t : Thread) : Prop :=
  maxCalls ≤ t.stack.length ∧
    ∃ st c, net.states[t.state]? = some st ∧ st.isRuleStop = false ∧ .call c ∈ st.followed

/-- No call is too deep in the search for a match at the start of the text. -/
def Roomy (net : Network) (mode : Nat) (text : List Char) : Prop :=
  ∀ w f, FrontAfter net mode w f → w <+: text → ∀ t, f.Seen t → ¬ Refused net t

/-- No call is too deep in any search while the text is cut into tokens. -/
def AllRoomy (net : Network) (input : String) : Prop :=
  ∀ s text, ReflTransGen (Round net) ({}, input.toList) (s, text) → Roomy net s.modes.current text

/-- The two cut a text into the same tokens, with the same diagnostics, if no call of the first is
too deep; and then no call of the second is too deep. -/
def CutsAlike (a b : Network) : Prop :=
  ∀ input, AllRoomy a input → tokenize b input = tokenize a input ∧ AllRoomy b input

theorem CutsAlike.trans {a b c : Network} (h : CutsAlike a b) (h' : CutsAlike b c) :
    CutsAlike a c :=
  fun input hroom =>
  have ⟨htokens, hroom⟩ := h input hroom
  have ⟨htokens', hroom⟩ := h' input hroom
  ⟨htokens'.trans htokens, hroom⟩

/-- A lexer whose searches come to an end, with no choice where input is taken. -/
structure Runs (net : Network) : Prop where
  wired : net.Wired
  closes : Closes net fun _ => False
  single : ∀ {s : Nat} {st : State}, net.states[s]? = some st → st.isRuleStop = false →
    st.isSilent = false →
    st.followed.length ≤ 1

variable {net a b : Network} {m : Machine} {mode n : Nat} {w text rest : List Char}
  {f f' : Front} {v : Visit}
  {t u : Thread} {best : Option Match}

section fronts

theorem FrontAfter.mode_lt (hf : FrontAfter net mode w f) : mode < net.modes.size := by
  induction hf with
  | start hstart =>
    obtain ⟨s, hs, -⟩ := bind_eq_ok.1 hstart
    exact (Array.getElem?_eq_some_iff.1 (Fault.ofLookup_eq_ok.1 hs)).1
  | step _ _ ih => exact ih

theorem FrontAfter.placed (h : Runs net) (hmode : mode < net.modes.size)
    (hf : FrontAfter net mode w f) : ∀ t ∈ f.threads, t.Placed net := by
  induction hf with
  | start hstart => exact (yields_start h.wired h.closes hmode).of_eq_ok hstart
  | step _ hstep ih => exact (yields_step h.wired h.closes ih _).of_eq_ok hstep

theorem Runs.exists_start (h : Runs net) (hmode : mode < net.modes.size) :
    ∃ f, start net mode = .ok f := by
  obtain ⟨f, hf, -⟩ := returns_iff_yields.2 (yields_start h.wired h.closes hmode)
  exact ⟨f, hf⟩

theorem Runs.exists_step (h : Runs net) (hmode : mode < net.modes.size)
    (hf : FrontAfter net mode w f) (symbol : Int) : ∃ f', step net f.threads symbol = .ok f' := by
  obtain ⟨f', hf', -⟩ :=
    returns_iff_yields.2 (yields_step h.wired h.closes (hf.placed h hmode) symbol)
  exact ⟨f', hf'⟩

theorem FrontAfter.after (h : Runs net) (hf : FrontAfter net mode w f) :
    ∃ v, (machine net).After mode w v ∧ Shows f v ∧ InOrder v.listed := by
  have hnext (t u : Thread) (hu : u ∈ (graph net).ahead t) := (ahead_keeps hu).1
  induction hf with
  | start hstart =>
    obtain ⟨v, hwalk, hshows⟩ := walk_of_start hstart
    exact ⟨v, .start hwalk, hshows, hwalk.listed_inOrder hnext inOrder_roots⟩
  | step _ hstep ih =>
    obtain ⟨v, hafter, hshows, horder⟩ := ih
    rw [hshows.threads] at hstep
    have hone : Single net v.listed := fun t ht st hst hns => by
      obtain ⟨-, hstop⟩ | ⟨-, hsilent⟩ := (waits_iff hst).1 (hafter.of_listed ht).1
      · rw [hns] at hstop
        cases hstop
      · exact h.single hst hns hsilent
    obtain ⟨v', hwalk, hshows'⟩ := walk_of_step hone horder hstep
    exact ⟨v', .step hafter hwalk, hshows', hwalk.listed_inOrder hnext horder.sends⟩

theorem Runs.exists_front (h : Runs net) (hmode : mode < net.modes.size) (w : List Char) :
    ∃ f, FrontAfter net mode w f := by
  induction w using List.reverseRecOn with
  | nil => exact (h.exists_start hmode).imp fun _ => .start
  | append_singleton w c ih =>
    obtain ⟨f, hf⟩ := ih
    exact (h.exists_step hmode hf c.toNat).imp fun _ => .step hf

theorem Runs.front_of_after (h : Runs net) (hmode : mode < net.modes.size)
    (hv : (machine net).After mode w v) : ∃ f, FrontAfter net mode w f ∧ Shows f v := by
  obtain ⟨f, hf⟩ := h.exists_front hmode w
  obtain ⟨v', hafter, hshows, -⟩ := hf.after h
  exact ⟨f, hf, hafter.det hv ▸ hshows⟩

/-- The thread is at the end of its rule, with no call open. -/
def ends (net : Network) (t : Thread) : Bool :=
  t.stack.isEmpty && net.states[t.state]?.any State.isRuleStop

theorem ends_iff : ends net t = true ↔ Accepting net t := by
  rw [ends, Bool.and_eq_true, List.isEmpty_iff, Option.any_eq_true]
  rfl

theorem findM?_eq_find? {ts : List Thread} {p : Thread → Except Fault Bool} {q : Thread → Bool}
    (h : ∀ t ∈ ts, p t = .ok (q t)) : ts.findM? p = .ok (ts.find? q) := by
  induction ts with
  | nil => rfl
  | cons t ts ih =>
    obtain ⟨ht, hts⟩ := List.forall_mem_cons.1 h
    rw [List.findM?, ht, List.find?_cons]
    cases q t with
    | true => rfl
    | false => exact ih hts

theorem matchOf_eq (hf : ∀ t ∈ f.threads, t.Placed net) :
    matchOf net n f = .ok ((f.threads.find? (ends net)).map
    fun t => { length := n, rule := (net.ownerOf t.state).getD 0, commands := t.commands }) := by
  have hstate {t : Thread} (ht : t ∈ f.threads) : ∃ st, net.states[t.state]? = some st :=
    ⟨_, Array.getElem?_eq_getElem (hf t ht).state⟩
  have hfind : f.threads.findM? (Thread.isAccepting net) = .ok (f.threads.find? (ends net)) := by
    refine findM?_eq_find? fun t ht => ?_
    obtain ⟨st, hst⟩ := hstate ht
    rw [Thread.isAccepting, ends, hst]
    cases t.stack.isEmpty with
    | true => exact bind_eq_ok.2 ⟨st, state_eq_ok.2 hst, rfl⟩
    | false => rfl
  rw [matchOf, hfind]
  cases hfound : f.threads.find? (ends net) with
  | none => rfl
  | some t =>
    obtain ⟨st, hst⟩ := hstate (List.mem_of_find?_eq_some hfound)
    rw [Option.map_some, ownerOf_eq hst]
    exact bind_eq_ok.2 ⟨some t, rfl, bind_eq_ok.2 ⟨st, state_eq_ok.2 hst, rfl⟩⟩

end fronts

section depths

/-- The states have depths, which no edge raises and every call lowers. -/
structure Graded (net : Network) (depth : Nat → Nat) : Prop where
  along : ∀ {s : Nat} {st : State} {e : Edge}, net.states[s]? = some st → st.isRuleStop = false →
    e ∈ st.followed →
    depth e.onward ≤ depth s
  call : ∀ {s : Nat} {st : State} {c : Call}, net.states[s]? = some st → st.isRuleStop = false →
    .call c ∈ st.followed →
    depth c.start < depth s

/-- Where each of these states is, there is room for as many more calls as it is deep. -/
def Fits (depth : Nat → Nat) : List Nat → Prop
  | [] => True
  | s :: stack => depth s + stack.length ≤ maxCalls ∧ Fits depth stack

variable {depth : Nat → Nat}

theorem Fits.lower {s x : Nat} {stack : List Nat} (h : Fits depth (s :: stack))
    (hle : depth x ≤ depth s) : Fits depth (x :: stack) :=
  ⟨(Nat.add_le_add_right hle _).trans h.1, h.2⟩

namespace Graded

variable (h : Graded net depth)
include h

theorem fits_ahead (ht : Fits depth (t.state :: t.stack)) (hu : u ∈ ahead net t) :
    Fits depth (u.state :: u.stack) := by
  obtain ⟨st, caller, stack, -, -, hstack, rfl⟩ | ⟨st, e, hst, hns, he, halong⟩ := ahead_cases hu
  · exact hstack ▸ ht.2
  · have hle := h.along hst hns he
    obtain ⟨-, -, ⟨c, rfl, hstate, hstack⟩ | ⟨hcall, hstate, hstack⟩⟩ := along_cases halong
    · have hlt := h.call hst hns he
      rw [hstate, hstack]
      refine ⟨?_, ht.lower hle⟩
      have := ht.1
      rw [List.length_cons]
      omega
    · rw [hstate, hstack, ← Edge.onward_of_call?_eq_none hcall]
      exact ht.lower hle

theorem fits_sends {symbol : Int} (ht : Fits depth (t.state :: t.stack))
    (hu : u ∈ sends net symbol t) : Fits depth (u.state :: u.stack) := by
  obtain ⟨st, e, hst, hns, he, haccepts, rfl⟩ := sends_cases hu
  have hcall : e.call? = none := by
    cases e with
    | call => cases haccepts
    | _ => rfl
  rw [← Edge.onward_of_call?_eq_none hcall]
  exact ht.lower (h.along hst hns he)

theorem allRoomy (hn : Runs net) (hbound : ∀ s, depth s ≤ maxCalls) (input : String) :
    AllRoomy net input := by
  rintro scan text - w f hf - t ht ⟨hdeep, st, c, hst, hns, hc⟩
  obtain ⟨v, hafter, hshows, -⟩ := hf.after hn
  have hfits : Fits depth (t.state :: t.stack) := by
    refine hafter.seen_keeps (P := fun t => Fits depth (t.state :: t.stack)) (fun t ht => ?_)
      (fun _ ht _ => h.fits_ahead ht) (fun _ _ ht _ => h.fits_sends ht) t ((hshows.seen t).1 ht)
    obtain ⟨_, _, _, -, -, -, hstack⟩ := roots_cases ht
    rw [hstack]
    exact ⟨hbound _, trivial⟩
  have := h.call hst hns hc
  have := hfits.1
  omega

end Graded

end depths

section agree

variable {within withinA withinB plain through : Thread → Prop} {rest : Thread → Thread}
  {rank : Thread → Nat}
  {v' : Visit}

open Classical in
theorem Reduces.find?_ends (hr : Reduces (machine net) m within plain through rest rank)
    (hends : ∀ t, within t → Accepting net t → rest t = t) (hv : (machine net).After mode w v)
    (hm : Mirrors (graph net) m.toGraph within through rest rank [] v v') :
    v'.listed.find? (fun t => decide (m.accepts t)) = v.listed.find? (ends net) := by
  have hsame : ∀ t ∈ v.listed, ((fun t => decide (m.accepts t)) ∘ rest) t = ends net t :=
    fun t ht => by
    obtain ⟨hwaits, hseen⟩ := hv.of_listed ht
    have hwithin := hm.within t hseen
    have hnot : ¬ through t := fun hthrough => (hr.folds.quiet t hwithin hthrough).1 hwaits
    rw [Function.comp_apply, Bool.eq_iff_iff, decide_eq_true_iff, ends_iff]
    exact hr.folds.accepts t hwithin hnot
  rw [hm.listed, find?_eraseDups, List.find?_map, List.find?_congr hsame]
  cases hfound : v.listed.find? (ends net) with
  | none => rfl
  | some t =>
    have hwithin := hm.within t (hv.of_listed (List.mem_of_find?_eq_some hfound)).2
    rw [Option.map_some, hends t hwithin (ends_iff.1 (List.find?_some hfound))]

theorem Mirrors.listed_eq_nil_iff
    (hm : Mirrors (graph net) m.toGraph within through rest rank [] v v') :
    v'.listed = [] ↔ v.listed = [] := by
  rw [hm.listed]
  simp [List.eq_nil_iff_forall_not_mem]

/-- Two lexers do what one machine does: the first does it as long as no call is too deep, and then
no call of the second is too deep. -/
structure Agree (a b : Network) (m : Machine) (withinA withinB through : Thread → Prop)
    (rest : Thread → Thread) (rank : Thread → Nat) : Prop where
  left : Reduces (machine a) m withinA (fun t => ¬ Refused a t) through rest rank
  right : Reduces (machine b) m withinB (fun _ => True) through rest rank
  leftEnds : ∀ t, withinA t → Accepting a t → rest t = t
  rightEnds : ∀ t, withinB t → Accepting b t → rest t = t
  owner : ∀ t, withinA t → a.ownerOf t.state = b.ownerOf t.state
  refused : ∀ t, withinB t → Refused b t → ¬ through t ∧ ∀ u, withinA u → ¬ through u →
    rest u = rest t → Refused a u
  tables : b = { a with states := b.states }

namespace Agree

variable (h : Agree a b m withinA withinB through rest rank) (ha : Runs a) (hb : Runs b)
include h

theorem modes_eq : b.modes = a.modes := by rw [h.tables]

theorem afterMatch_eq (s : Scan) (found : Match) (text : List Char) :
    s.afterMatch b found text = s.afterMatch a found text := by
  rw [h.tables]
  rfl

include ha hb

section longest

variable (hmode : mode < a.modes.size)
include hmode

/-- The fronts after the same characters, each with what its machine has come to, and what these
come to. -/
theorem fronts (hf : FrontAfter a mode w f) (hf' : FrontAfter b mode w f')
    (hroom : Roomy a mode w) :
    ∃ v v' x,
      ((machine a).After mode w v ∧ Shows f v ∧
      Mirrors (graph a) m.toGraph withinA through rest rank [] v x) ∧
      (machine b).After mode w v' ∧ Shows f' v' ∧
      Mirrors (graph b) m.toGraph withinB through rest rank [] v' x := by
  obtain ⟨v, hafter, hshows, -⟩ := hf.after ha
  obtain ⟨v', hafter', hshows', -⟩ := hf'.after hb
  obtain ⟨x, hx, hm⟩ := h.left.after hafter fun w' y hy hw' t ht => by
    obtain ⟨g, hg, hg'⟩ := ha.front_of_after hmode hy
    exact hroom w' g hg hw' t ((hg'.seen t).2 ht)
  obtain ⟨x', hx', hm'⟩ := h.right.after hafter' fun _ _ _ _ _ _ => trivial
  obtain rfl := hx.det hx'
  exact ⟨v, v', x, ⟨hafter, hshows, hm⟩, hafter', hshows', hm'⟩

/-- After the same characters the lexers have found the same match, and both have threads left or
none. -/
theorem matchOf_eq (hf : FrontAfter a mode w f) (hf' : FrontAfter b mode w f')
    (hroom : Roomy a mode w) :
    matchOf a n f = matchOf b n f' ∧ f.threads.isEmpty = f'.threads.isEmpty := by
  obtain ⟨v, v', x, ⟨hafter, hshows, hm⟩, hafter', hshows', hm'⟩ :=
    h.fronts ha hb hmode hf hf' hroom
  have hfind : f.threads.find? (ends a) = f'.threads.find? (ends b) := by
    rw [hshows.threads, hshows'.threads, ← h.left.find?_ends h.leftEnds hafter hm,
      ← h.right.find?_ends h.rightEnds hafter' hm']
  refine ⟨?_, ?_⟩
  · rw [Tokenizer.matchOf_eq (hf.placed ha hmode),
      Tokenizer.matchOf_eq (hf'.placed hb (h.modes_eq ▸ hmode)), ← hfind]
    refine congrArg _ (Option.map_congr fun t ht => ?_)
    have ht := List.mem_of_find?_eq_some ht
    rw [hshows.threads] at ht
    rw [h.owner t (hm.within t (hafter.of_listed ht).2)]
  · rw [Bool.eq_iff_iff, List.isEmpty_iff, List.isEmpty_iff, hshows.threads, hshows'.threads,
      ← hm.listed_eq_nil_iff, hm'.listed_eq_nil_iff]

theorem readOn_eq (hf : FrontAfter a mode w f) (hf' : FrontAfter b mode w f')
    (hroom : Roomy a mode (w ++ text)) :
    readOn a f.threads n best text = readOn b f'.threads n best text := by
  induction text generalizing w f f' n best with
  | nil => rfl
  | cons c text ih =>
    have part {u : List Char} (hu : u <+: w ++ c :: text) : Roomy a mode u := fun x g hg hx =>
      hroom x g hg (hx.trans hu)
    obtain ⟨g, hg⟩ := ha.exists_step hmode hf c.toNat
    obtain ⟨g', hg'⟩ := hb.exists_step (h.modes_eq ▸ hmode) hf' c.toNat
    have hnext : w ++ c :: text = (w ++ [c]) ++ text := by simp
    have hempty := (h.matchOf_eq (n := n) ha hb hmode hf hf' (part (List.prefix_append ..))).2
    have hmatch := (h.matchOf_eq (n := n + 1) ha hb hmode (hf.step hg) (hf'.step hg')
      (part (hnext ▸ List.prefix_append ..))).1
    rw [readOn, readOn, hempty, hg, hg']
    split
    · rfl
    · show (matchOf a (n + 1) g >>= _) = (matchOf b (n + 1) g' >>= _)
      rw [hmatch]
      refine bind_congr fun found => ?_
      exact ih (hf.step hg) (hf'.step hg') (hnext ▸ hroom)

theorem longestMatch_eq (hroom : Roomy a mode text) :
    longestMatch a mode text = longestMatch b mode text := by
  obtain ⟨f, hf⟩ := ha.exists_start hmode
  obtain ⟨f', hf'⟩ := hb.exists_start (h.modes_eq ▸ hmode)
  rw [longestMatch, longestMatch, hf, hf']
  exact h.readOn_eq ha hb hmode (.start hf) (.start hf') hroom

theorem roomy (hroom : Roomy a mode text) : Roomy b mode text := by
  intro w f' hf' hw t ht hrefused
  obtain ⟨f, hf⟩ := ha.exists_front hmode w
  obtain ⟨v, v', x, ⟨-, hshows, hm⟩, -, hshows', hm'⟩ :=
    h.fronts ha hb hmode hf hf' fun u g hg hu => hroom u g hg (hu.trans hw)
  have hseen := (hshows'.seen t).1 ht
  obtain ⟨hnot, hback⟩ := h.refused t (hm'.within t hseen) hrefused
  obtain ⟨u, hu, hunot, heq⟩ := hm.back _ (hm'.seen t hseen hnot)
  exact hroom w f hf hw u ((hshows.seen u).2 hu) (hback u (hm.within u hu) hunot heq)

end longest

theorem round_iff {s : Scan} {p : Scan × List Char} (hs : s.modes.InRange a)
    (hroom : Roomy a s.modes.current text) : Round a (s, text) p ↔ Round b (s, text) p := by
  have heq := h.longestMatch_eq ha hb (hs _ List.mem_cons_self) hroom
  constructor
  · intro hr
    generalize hp : (s, text) = q at hr
    cases hr with
    | matched hne hfound =>
      obtain ⟨rfl, rfl⟩ := Prod.mk.inj hp
      rw [← h.afterMatch_eq]
      exact .matched hne (heq ▸ hfound)
    | refused hnone =>
      obtain ⟨rfl, rfl⟩ := Prod.mk.inj hp
      exact .refused (heq ▸ hnone)
  · intro hr
    generalize hp : (s, text) = q at hr
    cases hr with
    | matched hne hfound =>
      obtain ⟨rfl, rfl⟩ := Prod.mk.inj hp
      rw [h.afterMatch_eq]
      exact .matched hne (heq ▸ hfound)
    | refused hnone =>
      obtain ⟨rfl, rfl⟩ := Prod.mk.inj hp
      exact .refused (heq ▸ hnone)

theorem run_eq {fuel : Nat} {s : Scan} (hs : s.modes.InRange a) (hroom : ∀ s' text',
    ReflTransGen (Round a) (s, text) (s', text') → Roomy a s'.modes.current text') :
    Scan.run a fuel s text = Scan.run b fuel s text := by
  induction fuel generalizing s text with
  | zero => cases text <;> rfl
  | succ fuel ih =>
    cases text with
    | nil => rfl
    | cons c text =>
      have heq := h.longestMatch_eq ha hb (hs _ List.mem_cons_self) (hroom s _ .refl)
      have next {p : Scan × List Char} (hr : Round a (s, c :: text) p) :
          Scan.run a fuel p.1 p.2 = Scan.run b fuel p.1 p.2 :=
        ih (Scan.inRange_round hs hr) fun s' text' hr' => hroom s' text' (.head hr hr')
      rw [Scan.run, Scan.run, ← heq]
      cases hfound : longestMatch a s.modes.current (c :: text) with
      | error e => rfl
      | ok found =>
        cases found with
        | none => exact next (.refused hfound)
        | some found =>
          show Scan.run a fuel _ _ = Scan.run b fuel _ _
          rw [h.afterMatch_eq]
          exact next (.matched (List.cons_ne_nil c text) hfound)

theorem tokenize_eq {input : String} (hroom : AllRoomy a input) :
    tokenize b input = tokenize a input := by
  have hkind : b.kind = a.kind := by rw [h.tables]
  rw [tokenize, tokenize, hkind, h.modes_eq]
  split
  · rfl
  split
  · rfl
  · rename_i hmodes
    have hpos : 0 < a.modes.size := by
      rw [Array.isEmpty_iff_size_eq_zero] at hmodes
      omega
    rw [h.run_eq ha hb (Modes.inRange_start hpos) hroom]

theorem allRoomy {input : String} (hroom : AllRoomy a input) : AllRoomy b input := by
  intro s text hr w f hf
  have hstart : Modes.InRange a {} :=
    Modes.inRange_start (h.modes_eq ▸ Nat.zero_lt_of_lt hf.mode_lt)
  have back : ∀ p, ReflTransGen (Round b) (({} : Scan), input.toList) p →
      ReflTransGen (Round a) (({} : Scan), input.toList) p := by
    intro p hp
    induction hp with
    | refl => exact .refl
    | @tail q p _ hr ih =>
      obtain ⟨s, text⟩ := q
      exact ih.tail ((h.round_iff ha hb (Scan.inRange_rounds hstart ih) (hroom s text ih)).2 hr)
  have hr := back _ hr
  exact h.roomy ha hb (Scan.inRange_rounds hstart hr _ List.mem_cons_self) (hroom s text hr) w f hf

theorem cutsAlike : CutsAlike a b :=
  fun _ hroom => ⟨h.tokenize_eq ha hb hroom, h.allRoomy ha hb hroom⟩

end Agree

end agree

end GrammarWalk.Tokenizer
