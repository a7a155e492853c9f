import GrammarWalk.Proofs.Network.Linking

/-! Links between states, and the numbers of decisions. A block's start and end name each other, a
loop names a state that closes it, and a decision's number leads back to its state. These facts
depend on the links of the states and on the edges of loopbacks only, so most changes of a network
leave them alone. -/

namespace GrammarWalk

namespace StateKind

def blockStart? : StateKind → Option Nat
  | blockEnd start => start
  | _ => none

/-- The state that closes a `+` loop, as the start of its block names it. -/
def plusLoopback? : StateKind → Option Nat
  | blockStart (.plus loopback) _ _ => loopback
  | _ => none

/-- The state that closes a `*` loop, as the loop's entry names it. -/
def starLoopback? : StateKind → Option Nat
  | starLoopEntry _ loopback _ => loopback
  | _ => none

def number? (k : StateKind) : Option Nat := k.decision?.bind (·.number)

def links : StateKind → List Nat
  | ruleStart stop _ _ => stop.toList
  | blockStart (.plus loopback) stop _ => loopback.toList ++ stop.toList
  | blockStart _ stop _ => stop.toList
  | blockEnd start => start.toList
  | loopEnd loopback => loopback.toList
  | starLoopEntry _ loopback _ => loopback.toList
  | _ => []

/-- A kind without its decision and without the mark of a precedence loop: its type and its
links. -/
def linkage : StateKind → StateKind
  | blockStart flavor stop _ => blockStart flavor stop {}
  | plusLoopBack _ => plusLoopBack {}
  | starLoopEntry _ loopback _ => starLoopEntry {} loopback false
  | tokensStart _ => tokensStart {}
  | k => k

/-- What a kind shows that neither a decision nor a mark changes. -/
def Linkage {α : Type} (g : StateKind → α) : Prop := ∀ k, g k.linkage = g k

theorem Linkage.congr {α : Type} {g : StateKind → α} (hg : Linkage g) {k k' : StateKind}
    (h : k'.linkage = k.linkage) : g k' = g k := by rw [← hg k', h, hg k]

theorem linkage_type : Linkage type := by rintro (_ | _ | _ | _ | ⟨_ | _ | _⟩ | _) <;> rfl

theorem linkage_links : Linkage links := by rintro (_ | _ | _ | _ | ⟨_ | _ | _⟩ | _) <;> rfl

theorem linkage_blockStop? : Linkage blockStop? := by rintro (_ | _) <;> rfl

theorem linkage_blockStart? : Linkage blockStart? := by rintro (_ | _) <;> rfl

theorem linkage_plusLoopback? : Linkage plusLoopback? := by
  rintro (_ | _ | _ | _ | ⟨_ | _ | _⟩ | _) <;> rfl

theorem linkage_starLoopback? : Linkage starLoopback? := by rintro (_ | _) <;> rfl

theorem linkage_mapDecision {k : StateKind} {f : Decision → Decision} :
    (k.mapDecision f).linkage = k.linkage := by cases k <;> rfl

theorem number?_mapDecision {k : StateKind} {f : Decision → Decision} :
    (k.mapDecision f).number? = (k.decision?.map f).bind (·.number) := by cases k <;> rfl

def isBlockStart : StateKind → Bool
  | blockStart .. => true
  | _ => false

theorem linkage_isBlockStart : Linkage isBlockStart := by rintro (_ | _) <;> rfl

theorem isBlockStart_type {k : StateKind} : k.isBlockStart =
    (k.type == .blockStart || k.type == .plusBlockStart || k.type == .starBlockStart) := by
  rcases k with _ | _ | _ | _ | ⟨_ | _ | _⟩ | _ | _ | _ | _ | _ | _ <;> rfl

/-- The type of a kind that is marked: the start of a precedence rule, or the entry of its loop. -/
def mark? : StateKind → Option StateType
  | ruleStart _ true _ => some .ruleStart
  | starLoopEntry _ _ true => some .starLoopEntry
  | _ => none

theorem mark?_mapDecision {k : StateKind} {f : Decision → Decision} :
    (k.mapDecision f).mark? = k.mark? := by
  rcases k with _ | _ | ⟨_, _ | _, _⟩ | _ | _ | _ | _ | _ | _ | ⟨_, _, _ | _⟩ | _ <;> rfl

/-- Nothing is linked yet but what the stream names, no decision has a number, and no loop is
marked. -/
structure Unlinked (n : Nat) (k : StateKind) : Prop where
  within : ∀ t ∈ k.links, t < n
  start : k.blockStart? = none
  plus : k.plusLoopback? = none
  star : k.starLoopback? = none
  number : k.number? = none
  mark : k.mark? ≠ some .starLoopEntry

end StateKind

namespace Network

open StateKind (Linkage)

variable {net net' : Network} {s t l : Nat} {f : State → State}

/-- What the kind of state `s` shows under `g`. -/
def linkAt (net : Network) (g : StateKind → Option Nat) (s : Nat) : Option Nat :=
  net.states[s]?.bind fun st => g st.kind

variable {g : StateKind → Option Nat}

theorem linkAt_eq_some :
    net.linkAt g s = some t ↔ ∃ st, net.states[s]? = some st ∧ g st.kind = some t :=
  Option.bind_eq_some_iff

theorem linkAt_of_getElem? {st : State} (h : net.states[s]? = some st) :
    net.linkAt g s = g st.kind := by
  rw [linkAt, h, Option.bind_some]

theorem linkAt_modify : (net.modify s f).linkAt g t =
    if s = t then net.states[t]?.bind fun st => g (f st).kind else net.linkAt g t := by
  rw [linkAt, getElem?_modify]
  split
  · rw [Option.bind_map]; rfl
  · rfl

theorem linkAt_modify_eq (h : ∀ st, net.states[s]? = some st → g (f st).kind = g st.kind) :
    (net.modify s f).linkAt g t = net.linkAt g t := by
  rw [linkAt_modify]
  split
  · subst s
    cases ht : net.states[t]? with
    | none => rw [linkAt, ht]; rfl
    | some st => rw [linkAt, ht]; exact h st ht
  · rfl

theorem linkAt_addState {kind : StateKind} {rule : Option Nat} :
    (net.addState kind rule).2.linkAt g t = if t = net.states.size then g kind
    else net.linkAt g t := by
  rw [linkAt, getElem?_addState_eq]
  split <;> rfl

/-- The state that closes a loop at `s`: it is of the type for it and has an edge to `s`. -/
def Closes (net : Network) (type : StateType) (l s : Nat) : Prop :=
  ∃ st, net.states[l]? = some st ∧ st.kind.type = type ∧ s ∈ st.edges.map Edge.target

/-- The same of the state that closes a `*` loop, as long as it has one edge only. -/
def ClosesAlone (net : Network) (l s : Nat) : Prop :=
  ∃ st, net.states[l]? = some st ∧ st.kind.type = .starLoopBack ∧
    ∀ t, st.edges.map Edge.target = [t] → t = s

/-- State `s` is of type `type`. -/
def HasType (net : Network) (s : Nat) (type : StateType) : Prop :=
  ∃ st, net.states[s]? = some st ∧ st.kind.type = type

theorem HasType.keeps {type : StateType} (h : net.HasType s type) (hk : Keeps net net') :
    net'.HasType s type := by
  obtain ⟨st, hst, htype⟩ := h
  obtain ⟨st', hst', -, htype'⟩ := hk.state hst
  exact ⟨st', hst', htype'.trans htype⟩

theorem hasType_addState {kind : StateKind} {rule : Option Nat} :
    (net.addState kind rule).2.HasType net.states.size kind.type := ⟨_, getElem?_addState_new, rfl⟩

/-- Links lead to states that exist; a block's start names its end, which names the start in turn; a
linked loop has a state that closes it. -/
structure Linked (net : Network) : Prop where
  within : ∀ {s : Nat} {st : State}, net.states[s]? = some st →
    ∀ t ∈ st.kind.links, t < net.states.size
  ends : ∀ {s : Nat} {st : State}, net.states[s]? = some st → st.kind.isBlockStart = true →
    st.kind.blockStop?.isSome = true
  block : ∀ {s t : Nat}, net.linkAt StateKind.blockStop? s = some t ↔
    net.linkAt StateKind.blockStart? t = some s
  plus : ∀ {s l : Nat}, net.linkAt StateKind.plusLoopback? s = some l → net.Closes .plusLoopBack l s
  star : ∀ {s l : Nat}, net.linkAt StateKind.starLoopback? s = some l → net.ClosesAlone l s

/-- Decisions are numbered: the table and the states' own numbers say the same. -/
def Numbered (net : Network) : Prop :=
  ∀ d s : Nat, net.decisions[d]? = some s ↔ net.linkAt StateKind.number? s = some d

/-- The states of `net` have the same links in `net'`, and loopbacks lead to the same states; states
that come on top are plain. -/
structure SameLinks (net net' : Network) : Prop where
  old : ∀ {s : Nat} {st : State}, net.states[s]? = some st → ∃ st', net'.states[s]? = some st' ∧
    st'.kind.linkage = st.kind.linkage ∧
    (st.kind.type = .plusLoopBack ∨ st.kind.type = .starLoopBack →
      st'.edges.map Edge.target = st.edges.map Edge.target)
  new : ∀ {s : Nat} {st' : State}, net'.states[s]? = some st' → net.states.size ≤ s →
    st'.kind = .basic

namespace SameLinks

theorem refl (net : Network) : SameLinks net net :=
  ⟨fun h => ⟨_, h, rfl, fun _ => rfl⟩, fun h hs => absurd (lt_size h) (Nat.not_lt.2 hs)⟩

theorem size_le (h : SameLinks net net') : net.states.size ≤ net'.states.size := by
  by_contra hlt
  obtain ⟨_, hst, -⟩ := h.old (Array.getElem?_eq_getElem (Nat.lt_of_not_le hlt))
  exact Nat.lt_irrefl _ (lt_size hst)

theorem trans {a b c : Network} (h : SameLinks a b) (h' : SameLinks b c) : SameLinks a c where
  old hs := by
    obtain ⟨st, h1, hk, he⟩ := h.old hs
    obtain ⟨st', h2, hk', he'⟩ := h'.old h1
    refine ⟨st', h2, hk'.trans hk, fun hback => ?_⟩
    rw [← he hback]
    exact he' (by rwa [StateKind.linkage_type.congr hk])
  new {s st'} hs hge := by
    by_cases hlt : s < b.states.size
    · have hb := Array.getElem?_eq_getElem hlt
      obtain ⟨st, hst, hk, -⟩ := h'.old hb
      obtain rfl := Option.some.inj (hs.symm.trans hst)
      rw [h.new hb hge] at hk
      generalize st'.kind = k at hk ⊢
      cases k <;> first | rfl | exact nomatch hk
    · exact h'.new hs (Nat.le_of_not_lt hlt)

theorem cases (h : SameLinks net net') {st' : State} (hs : net'.states[s]? = some st') :
    (∃ st, net.states[s]? = some st ∧ st'.kind.linkage = st.kind.linkage) ∨
      (net.states[s]? = none ∧ st'.kind = .basic) := by
  by_cases hlt : s < net.states.size
  · have hold := Array.getElem?_eq_getElem hlt
    obtain ⟨st, hst, hk, -⟩ := h.old hold
    obtain rfl := Option.some.inj (hs.symm.trans hst)
    exact .inl ⟨_, hold, hk⟩
  · exact .inr ⟨Array.getElem?_eq_none (Nat.le_of_not_lt hlt), h.new hs (Nat.le_of_not_lt hlt)⟩

theorem linkAt (h : SameLinks net net') (hg : Linkage g) (hbasic : g .basic = none) :
    net'.linkAt g s = net.linkAt g s := by
  cases hs : net'.states[s]? with
  | none =>
    have hold : net.states[s]? = none := by
      cases hold : net.states[s]? with
      | none => rfl
      | some st =>
        obtain ⟨_, hst, -⟩ := h.old hold
        exact nomatch hs.symm.trans hst
    rw [Network.linkAt, Network.linkAt, hs, hold]
  | some st' =>
    rw [linkAt_of_getElem? hs]
    obtain ⟨st, hst, hk⟩ | ⟨hnone, hk⟩ := h.cases hs
    · rw [linkAt_of_getElem? hst, hg.congr hk]
    · rw [hk, hbasic, Network.linkAt, hnone, Option.bind_none]

theorem closes (h : SameLinks net net') (hc : net.Closes .plusLoopBack l s) :
    net'.Closes .plusLoopBack l s := by
  obtain ⟨st, hst, htype, hmem⟩ := hc
  obtain ⟨st', hst', hk, he⟩ := h.old hst
  exact ⟨st', hst', (StateKind.linkage_type.congr hk).trans htype, he (.inl htype) ▸ hmem⟩

theorem closesAlone (h : SameLinks net net') (hc : net.ClosesAlone l s) : net'.ClosesAlone l s := by
  obtain ⟨st, hst, htype, hone⟩ := hc
  obtain ⟨st', hst', hk, he⟩ := h.old hst
  exact ⟨st', hst', (StateKind.linkage_type.congr hk).trans htype, he (.inr htype) ▸ hone⟩

theorem linked (h : SameLinks net net') (hl : net.Linked) : net'.Linked where
  within {s st'} hs t ht := by
    obtain ⟨st, hst, hk⟩ | ⟨-, hk⟩ := h.cases hs
    · rw [StateKind.linkage_links.congr hk] at ht
      exact Nat.lt_of_lt_of_le (hl.within hst t ht) h.size_le
    · rw [hk] at ht
      exact nomatch ht
  ends {s st'} hs hb := by
    obtain ⟨st, hst, hk⟩ | ⟨-, hk⟩ := h.cases hs
    · rw [StateKind.linkage_isBlockStart.congr hk] at hb
      rw [StateKind.linkage_blockStop?.congr hk]
      exact hl.ends hst hb
    · rw [hk] at hb
      exact nomatch hb
  block {s t} := by
    rw [h.linkAt StateKind.linkage_blockStop? rfl, h.linkAt StateKind.linkage_blockStart? rfl]
    exact hl.block
  plus hs := by
    rw [h.linkAt StateKind.linkage_plusLoopback? rfl] at hs
    exact h.closes (hl.plus hs)
  star hs := by
    rw [h.linkAt StateKind.linkage_starLoopback? rfl] at hs
    exact h.closesAlone (hl.star hs)

theorem modify (hf : ∀ st, net.states[s]? = some st → (f st).kind.linkage = st.kind.linkage ∧
    (st.kind.type = .plusLoopBack ∨ st.kind.type = .starLoopBack →
      (f st).edges.map Edge.target = st.edges.map Edge.target)) :
    SameLinks net (net.modify s f) where
  old {t st} ht := by
    by_cases hst : s = t
    · subst hst
      exact ⟨f st, getElem?_modify_self ht, hf st ht⟩
    · exact ⟨st, by rw [getElem?_modify_of_ne hst, ht], rfl, fun _ => rfl⟩
  new ht hge := absurd (lt_size ht) (Nat.not_lt.2 (by rwa [size_modify]))

end SameLinks

section linking

structure Unlinked (net : Network) : Prop where
  kind : ∀ {s : Nat} {st : State}, net.states[s]? = some st → st.kind.Unlinked net.states.size
  decisions : net.decisions = #[]

theorem Unlinked.linkAt (h : net.Unlinked)
    (hg : ∀ k : StateKind, k.Unlinked net.states.size → g k = none) : net.linkAt g s = none :=
  Option.bind_eq_none_iff.2 fun _ hs => hg _ (h.kind hs)

/-- The ends of the blocks that start below `k` are linked, and nothing else is. -/
structure LinkedBelow (k : Nat) (net : Network) : Prop where
  within : ∀ {s : Nat} {st : State}, net.states[s]? = some st →
    ∀ t ∈ st.kind.links, t < net.states.size
  ends : ∀ {s : Nat} {st : State}, net.states[s]? = some st → s < k → st.kind.isBlockStart = true →
    st.kind.blockStop?.isSome = true
  block : ∀ {s t : Nat}, net.linkAt StateKind.blockStart? t = some s ↔
    s < k ∧ net.linkAt StateKind.blockStop? s = some t
  plus : ∀ s, net.linkAt StateKind.plusLoopback? s = none
  star : ∀ s, net.linkAt StateKind.starLoopback? s = none

theorem Unlinked.below (h : net.Unlinked) : net.LinkedBelow 0 where
  within hs := (h.kind hs).within
  ends _ hlt := absurd hlt (Nat.not_lt_zero _)
  block {s t} := by
    rw [h.linkAt fun _ hk => hk.start]
    simp
  plus _ := h.linkAt fun _ hk => hk.plus
  star _ := h.linkAt fun _ hk => hk.star

theorem LinkedBelow.linked (h : net.LinkedBelow net.states.size) : net.Linked where
  within := h.within
  ends hs := h.ends hs (lt_size hs)
  block {s t} := by
    rw [h.block]
    refine ⟨fun hs => ⟨?_, hs⟩, And.right⟩
    obtain ⟨_, hst, -⟩ := linkAt_eq_some.1 hs
    exact lt_size hst
  plus {s l} hs := by rw [h.plus] at hs; exact nomatch hs
  star {s l} hs := by rw [h.star] at hs; exact nomatch hs

theorem LinkedBelow.skip {k : Nat} {st : State} (h : net.LinkedBelow k)
    (hst : net.states[k]? = some st) (hk : st.kind.isBlockStart = false) :
    net.LinkedBelow (k + 1) := by
  have hnone : net.linkAt StateKind.blockStop? k = none := by
    rw [linkAt_of_getElem? hst]
    generalize st.kind = kind at hk
    cases kind <;> first | rfl | exact nomatch hk
  have ne {s : Nat} (hs : s < k + 1) (hne : s ≠ k) : s < k := by omega
  refine { h with ends := fun {s st'} hs hlt hb => ?_, block := fun {s t} => h.block.trans ?_ }
  · refine h.ends hs (ne hlt ?_) hb
    rintro rfl
    rw [← Option.some.inj (hst.symm.trans hs), hk] at hb
    exact nomatch hb
  · refine and_congr_left fun hs => ⟨fun hlt => Nat.lt_succ_of_lt hlt, fun hlt => ne hlt ?_⟩
    rintro rfl
    exact nomatch hnone.symm.trans hs

/-- The network where block end `stop` names `k` as the start of its block. -/
def withBlockStart (net : Network) (stop k : Nat) : Network :=
  net.modify stop fun st => { st with kind := .blockEnd (some k) }

section claim

variable {k stop : Nat} {st e : State}

theorem getElem?_withBlockStart (hs : (net.withBlockStart stop k).states[s]? = some st) :
    st.kind = .blockEnd (some k) ∨ net.states[s]? = some st := by
  rw [withBlockStart, getElem?_modify] at hs
  split at hs
  · obtain ⟨_, -, rfl⟩ := Option.map_eq_some_iff.1 hs
    exact .inl rfl
  · exact .inr hs

theorem linkAt_withBlockStart (he : net.states[stop]? = some e) (hopen : e.kind = .blockEnd none)
    (hg : ∀ start, g (.blockEnd start) = none) :
    (net.withBlockStart stop k).linkAt g s = net.linkAt g s :=
  linkAt_modify_eq fun st hst => by
    obtain rfl := Option.some.inj (he.symm.trans hst)
    rw [hopen, hg, hg]

theorem blockStart_withBlockStart (he : net.states[stop]? = some e) :
    (net.withBlockStart stop k).linkAt StateKind.blockStart? t =
      if stop = t then some k else net.linkAt StateKind.blockStart? t := by
  rw [withBlockStart, linkAt_modify]
  split
  · subst t
    rw [he]
    rfl
  · rfl

theorem LinkedBelow.ne_stop (h : net.LinkedBelow k) (he : net.states[stop]? = some e)
    (hopen : e.kind = .blockEnd none) (hs : s < k) :
    net.linkAt StateKind.blockStop? s ≠ some stop :=
  fun hstop => by
  have := h.block.2 ⟨hs, hstop⟩
  rw [linkAt_of_getElem? he, hopen] at this
  exact nomatch this

theorem LinkedBelow.claim (h : net.LinkedBelow k)
    (hstop : net.linkAt StateKind.blockStop? k = some stop) (he : net.states[stop]? = some e)
    (hopen : e.kind = .blockEnd none) : (net.withBlockStart stop k).LinkedBelow (k + 1) where
  within {s st} hs t ht := by
    rw [withBlockStart, size_modify]
    rcases getElem?_withBlockStart hs with hk | hs
    · rw [hk] at ht
      obtain rfl := List.mem_singleton.1 ht
      obtain ⟨_, hst, -⟩ := linkAt_eq_some.1 hstop
      exact lt_size hst
    · exact h.within hs t ht
  ends {s st} hs hlt hb := by
    rcases getElem?_withBlockStart hs with hk | hold
    · rw [hk] at hb
      exact nomatch hb
    · rcases Nat.lt_succ_iff_lt_or_eq.1 hlt with hlt | rfl
      · exact h.ends hold hlt hb
      · rw [linkAt_of_getElem? hold] at hstop
        rw [hstop]
        rfl
  block {s t} := by
    rw [blockStart_withBlockStart he, linkAt_withBlockStart (g := StateKind.blockStop?) he hopen
      fun _ => rfl, Nat.lt_succ_iff_lt_or_eq]
    split
    · subst t
      refine ⟨fun hs => ?_, fun ⟨hlt, hs⟩ => ?_⟩
      · obtain rfl := Option.some.inj hs
        exact ⟨.inr rfl, hstop⟩
      · rw [hlt.resolve_left fun hlt => h.ne_stop he hopen hlt hs]
    · rename_i hne
      rw [h.block]
      refine and_congr_left fun hs => (or_iff_left ?_).symm
      rintro rfl
      exact hne (Option.some.inj (hstop.symm.trans hs))
  plus s := (linkAt_withBlockStart he hopen fun _ => rfl).trans (h.plus s)
  star s := (linkAt_withBlockStart he hopen fun _ => rfl).trans (h.star s)

end claim

theorem LinkedBelow.linkBlock {k : Nat} (h : net.LinkedBelow k) (hn : net.linkBlock k = .ok net') :
    net'.LinkedBelow (k + 1) := by
  obtain ⟨st, hst, ⟨hnone, rfl⟩ | ⟨flavor, stop, d, e, hk, he, hopen, rfl⟩⟩ := linkBlock_cases hn
  · refine h.skip hst ?_
    generalize st.kind = kind at hnone
    cases kind with
    | blockStart flavor stop d => exact (hnone flavor stop d rfl).elim
    | _ => rfl
  · refine h.claim ?_ he hopen
    rw [linkAt_of_getElem? hst, hk]
    rfl

theorem size_of_linkBlock {k : Nat} (hn : net.linkBlock k = .ok net') :
    net'.states.size = net.states.size := by
  obtain ⟨st, -, ⟨-, rfl⟩ | ⟨_, _, _, _, -, -, -, rfl⟩⟩ := linkBlock_cases hn
  · rfl
  · exact size_modify

theorem Unlinked.linkBlocks (h : net.Unlinked) (hn : net.linkBlocks = .ok net') : net'.Linked := by
  have key := foldlM_range_keeps (P := fun k m => m.LinkedBelow k ∧ m.states.size = net.states.size)
    (fun k _ m m' hm hs => ⟨hm.1.linkBlock hs, (size_of_linkBlock hs).trans hm.2⟩) ⟨h.below, rfl⟩ hn
  exact LinkedBelow.linked (key.2 ▸ key.1)

theorem getElem?_modify_link (hf : ChangesLink f) {u : Nat} {st : State}
    (hs : net.states[u]? = some st) :
    ∃ st', (net.modify t f).states[u]? = some st' ∧ st'.kind.type = st.kind.type ∧
      st'.edges = st.edges := by
  by_cases htu : t = u
  · subst htu
    exact ⟨f st, getElem?_modify_self hs, hf.type st, by rw [hf.eq st]⟩
  · exact ⟨st, by rw [getElem?_modify_of_ne htu, hs], rfl, rfl⟩

theorem Closes.modify_link {type : StateType} (hf : ChangesLink f) (h : net.Closes type l s) :
    (net.modify t f).Closes type l s := by
  obtain ⟨st, hst, htype, hmem⟩ := h
  obtain ⟨st', hst', htype', hedges⟩ := getElem?_modify_link hf hst
  exact ⟨st', hst', htype'.trans htype, hedges ▸ hmem⟩

theorem ClosesAlone.modify_link (hf : ChangesLink f) (h : net.ClosesAlone l s) :
    (net.modify t f).ClosesAlone l s := by
  obtain ⟨st, hst, htype, hone⟩ := h
  obtain ⟨st', hst', htype', hedges⟩ := getElem?_modify_link hf hst
  exact ⟨st', hst', htype'.trans htype, hedges ▸ hone⟩

theorem Linked.modify_link (h : net.Linked) (hf : ChangesLink f)
    (hwithin : ∀ st, net.states[t]? = some st → ∀ u ∈ (f st).kind.links, u < net.states.size)
    (hstop : ∀ st, (f st).kind.blockStop? = st.kind.blockStop?)
    (hstart : ∀ st, (f st).kind.blockStart? = st.kind.blockStart?)
    (hplus : ∀ st, net.states[t]? = some st → ∀ u, (f st).kind.plusLoopback? = some u →
      net.Closes .plusLoopBack u t)
    (hstar : ∀ st, net.states[t]? = some st → ∀ u, (f st).kind.starLoopback? = some u →
      net.ClosesAlone u t) : (net.modify t f).Linked where
  within {s st} hs u hu := by
    rw [size_modify]
    rw [getElem?_modify] at hs
    split at hs
    · subst t
      obtain ⟨old, hold, rfl⟩ := Option.map_eq_some_iff.1 hs
      exact hwithin old hold u hu
    · exact h.within hs u hu
  ends {s st} hs hb := by
    rw [getElem?_modify] at hs
    split at hs
    · obtain ⟨old, hold, rfl⟩ := Option.map_eq_some_iff.1 hs
      rw [StateKind.isBlockStart_type, hf.type, ← StateKind.isBlockStart_type] at hb
      rw [hstop]
      exact h.ends hold hb
    · exact h.ends hs hb
  block {s u} := by
    rw [linkAt_modify_eq fun st _ => hstop st, linkAt_modify_eq fun st _ => hstart st]
    exact h.block
  plus {s u} hs := by
    refine Closes.modify_link hf ?_
    rw [linkAt_modify] at hs
    split at hs
    · subst t
      obtain ⟨st, hst, hu⟩ := Option.bind_eq_some_iff.1 hs
      exact hplus st hst u hu
    · exact h.plus hs
  star {s u} hs := by
    refine ClosesAlone.modify_link hf ?_
    rw [linkAt_modify] at hs
    split at hs
    · subst t
      obtain ⟨st, hst, hu⟩ := Option.bind_eq_some_iff.1 hs
      exact hstar st hst u hu
    · exact h.star hs

theorem Linked.closePlus (h : net.Linked) (hc : net.Closes .plusLoopBack l t) :
    (net.modify t (closePlus l)).Linked := by
  have hl : l < net.states.size := by
    obtain ⟨_, hst, -⟩ := hc
    exact lt_size hst
  have cases (st : State) : (∃ loopback stop d, st.kind = .blockStart (.plus loopback) stop d ∧
      (Network.closePlus l st).kind = .blockStart (.plus (some l)) stop d) ∨
      Network.closePlus l st = st := by
    unfold Network.closePlus
    split
    · exact .inl ⟨_, _, _, ‹_›, rfl⟩
    · exact .inr rfl
  refine h.modify_link (changesLink_closePlus l) (fun st hst u hu => ?_) (fun st => ?_)
    (fun st => ?_)
    (fun st hst u hu => ?_) (fun st hst u hu => ?_)
  all_goals obtain ⟨loopback, stop, d, hk, hk'⟩ | heq := cases st
  · rw [hk'] at hu
    rcases List.mem_append.1 hu with hu | hu
    · obtain rfl := List.mem_singleton.1 hu
      exact hl
    · exact h.within hst u (by rw [hk]; exact List.mem_append_right _ hu)
  · exact h.within hst u (heq ▸ hu)
  · rw [hk, hk']; rfl
  · rw [heq]
  · rw [hk, hk']; rfl
  · rw [heq]
  · rw [hk'] at hu
    obtain rfl := Option.some.inj hu
    exact hc
  · exact h.plus ((linkAt_of_getElem? hst).trans (heq ▸ hu))
  · rw [hk'] at hu
    exact nomatch hu
  · exact h.star ((linkAt_of_getElem? hst).trans (heq ▸ hu))

theorem Linked.closeStar (h : net.Linked) (hc : net.ClosesAlone l t) :
    (net.modify t (closeStar l)).Linked := by
  have hl : l < net.states.size := by
    obtain ⟨_, hst, -⟩ := hc
    exact lt_size hst
  have cases (st : State) : (∃ d loopback p, st.kind = .starLoopEntry d loopback p ∧
      (Network.closeStar l st).kind = .starLoopEntry d (some l) p) ∨
      Network.closeStar l st = st := by
    unfold Network.closeStar
    split
    · exact .inl ⟨_, _, _, ‹_›, rfl⟩
    · exact .inr rfl
  refine h.modify_link (changesLink_closeStar l) (fun st hst u hu => ?_) (fun st => ?_)
    (fun st => ?_)
    (fun st hst u hu => ?_) (fun st hst u hu => ?_)
  all_goals obtain ⟨d, loopback, p, hk, hk'⟩ | heq := cases st
  · rw [hk'] at hu
    obtain rfl := List.mem_singleton.1 hu
    exact hl
  · exact h.within hst u (heq ▸ hu)
  · rw [hk, hk']; rfl
  · rw [heq]
  · rw [hk, hk']; rfl
  · rw [heq]
  · rw [hk'] at hu
    exact nomatch hu
  · exact h.plus ((linkAt_of_getElem? hst).trans (heq ▸ hu))
  · rw [hk'] at hu
    obtain rfl := Option.some.inj hu
    exact hc
  · exact h.star ((linkAt_of_getElem? hst).trans (heq ▸ hu))

theorem Linked.linkLoop (h : net.Linked) (hn : net.linkLoop s = .ok net') : net'.Linked := by
  -- the state that closes the loops keeps its type and its edges on the way
  refine (linkLoop_induction (P := fun m => m.Linked ∧ ∀ st, net.states[s]? = some st →
    ∃ st', m.states[s]? = some st' ∧ st'.kind.type = st.kind.type ∧ st'.edges = st.edges) hn
    ⟨h, fun st hst => ⟨st, hst, rfl, rfl⟩⟩ ?plus ?star).1
  case plus =>
    rintro st d hst hk e he m ⟨hm, hsame⟩
    have kept := changesLink_closePlus s
    obtain ⟨st', hst', htype, hedges⟩ := hsame st hst
    refine ⟨hm.closePlus ⟨st', hst', by rw [htype, hk]; rfl, hedges ▸ List.mem_map_of_mem he⟩,
      fun st hst => ?_⟩
    obtain ⟨st', hst', htype, hedges⟩ := hsame st hst
    obtain ⟨st'', hst'', htype', hedges'⟩ := getElem?_modify_link kept hst'
    exact ⟨st'', hst'', htype'.trans htype, hedges'.trans hedges⟩
  case star =>
    rintro st hst hk e he m ⟨hm, hsame⟩
    have kept := changesLink_closeStar s
    obtain ⟨st', hst', htype, hedges⟩ := hsame st hst
    refine ⟨hm.closeStar ⟨st', hst', by rw [htype, hk]; rfl, fun t ht => ?_⟩, fun st hst => ?_⟩
    · have hmem := List.mem_map_of_mem (f := Edge.target) he
      rw [← hedges, ht] at hmem
      exact (List.mem_singleton.1 hmem).symm
    · obtain ⟨st', hst', htype, hedges⟩ := hsame st hst
      obtain ⟨st'', hst'', htype', hedges'⟩ := getElem?_modify_link kept hst'
      exact ⟨st'', hst'', htype'.trans htype, hedges'.trans hedges⟩

theorem Linked.linkLoops (h : net.Linked) (hn : net.linkLoops = .ok net') : net'.Linked :=
  foldlM_keeps (P := Linked) (fun _ _ _ _ hm hs => hm.linkLoop hs) h hn

theorem SameLinks.markPrecedences (hn : net.markPrecedences = .ok net') : SameLinks net net' := by
  refine foldlM_keeps (P := SameLinks net) (fun s _ m m' hm hs => ?_) (.refl net) hn
  obtain rfl | ⟨st, d, loopback, p, hst, hk, -, rfl⟩ := markPrecedence_cases hs
  · exact hm
  · refine hm.trans (.modify fun st' hst' => ⟨?_, fun _ => rfl⟩)
    obtain rfl := Option.some.inj (hst.symm.trans hst')
    rw [hk]
    rfl

theorem SameLinks.defineDecision {d : Nat} (hn : net.defineDecision s = some (d, net')) :
    SameLinks net net' := by
  obtain ⟨st, dec, -, -, -, -, rfl⟩ := defineDecision_eq_some hn
  have h : SameLinks net (net.modify s fun st => { st with
      kind := st.kind.mapDecision fun d => { d with number := some net.decisions.size } }) :=
    .modify fun _ _ => ⟨StateKind.linkage_mapDecision, fun _ => rfl⟩
  exact ⟨h.old, h.new⟩

end linking

section numbers

/-- The decisions of `net` have the same numbers in `net'`. -/
structure SameNumbers (net net' : Network) : Prop where
  decisions : net'.decisions = net.decisions
  number : ∀ s, net'.linkAt StateKind.number? s = net.linkAt StateKind.number? s

theorem SameNumbers.refl (net : Network) : SameNumbers net net := ⟨rfl, fun _ => rfl⟩

theorem SameNumbers.trans {a b c : Network} (h : SameNumbers a b) (h' : SameNumbers b c) :
    SameNumbers a c :=
  ⟨h'.decisions.trans h.decisions, fun s => (h'.number s).trans (h.number s)⟩

theorem SameNumbers.numbered (h : SameNumbers net net') (hn : net.Numbered) : net'.Numbered := by
  intro d s
  rw [h.decisions, h.number]
  exact hn d s

theorem SameNumbers.modify
    (hf : ∀ st, net.states[s]? = some st → (f st).kind.number? = st.kind.number?) :
    SameNumbers net (net.modify s f) := ⟨rfl, fun _ => linkAt_modify_eq hf⟩

theorem SameNumbers.addState {kind : StateKind} {rule : Option Nat} (h : kind.number? = none) :
    SameNumbers net (net.addState kind rule).2 := by
  refine ⟨rfl, fun s => ?_⟩
  rw [linkAt_addState]
  split
  · subst s
    rw [h, linkAt, Array.getElem?_eq_none (Nat.le_refl _), Option.bind_none]
  · rfl

theorem SameNumbers.linkBlocks (hn : net.linkBlocks = .ok net') : SameNumbers net net' := by
  refine foldlM_keeps (P := SameNumbers net) (fun s _ m m' hm hs => ?_) (.refl net) hn
  obtain ⟨st, -, ⟨-, rfl⟩ | ⟨_, stop, _, e, -, he, hopen, rfl⟩⟩ := linkBlock_cases hs
  · exact hm
  · refine hm.trans (.modify fun st' hst' => ?_)
    obtain rfl := Option.some.inj (he.symm.trans hst')
    rw [hopen]
    rfl

theorem SameNumbers.linkLoops (hn : net.linkLoops = .ok net') : SameNumbers net net' := by
  refine foldlM_keeps (P := SameNumbers net) (fun s _ m m' hm hs => ?_) (.refl net) hn
  refine linkLoop_induction (P := SameNumbers net) hs hm ?_ ?_
  · refine fun _ _ _ _ e _ _ hm => hm.trans (.modify fun st _ => ?_)
    unfold closePlus
    split
    · rename_i hk
      rw [hk]
      rfl
    · rfl
  · refine fun _ _ _ e _ _ hm => hm.trans (.modify fun st _ => ?_)
    unfold closeStar
    split
    · rename_i hk
      rw [hk]
      rfl
    · rfl

theorem SameNumbers.markPrecedences (hn : net.markPrecedences = .ok net') :
    SameNumbers net net' := by
  refine foldlM_keeps (P := SameNumbers net) (fun s _ m m' hm hs => ?_) (.refl net) hn
  obtain rfl | ⟨st, d, loopback, p, hst, hk, -, rfl⟩ := markPrecedence_cases hs
  · exact hm
  · refine hm.trans (.modify fun st' hst' => ?_)
    obtain rfl := Option.some.inj (hst.symm.trans hst')
    rw [hk]
    rfl

theorem Unlinked.numbered (h : net.Unlinked) : net.Numbered := by
  intro d s
  rw [h.decisions, h.linkAt fun _ hk => hk.number]
  simp

theorem Numbered.defineDecision (h : net.Numbered) {d : Nat}
    (hn : net.defineDecision s = some (d, net')) : net'.Numbered := by
  obtain ⟨st, dec, hst, hdec, hopen, -, rfl⟩ := defineDecision_eq_some hn
  have hnone : net.linkAt StateKind.number? s = none := by
    rw [linkAt_of_getElem? hst, StateKind.number?, hdec, Option.bind_some, hopen]
  have hnumber (t : Nat) : (net.modify s fun st => { st with
      kind := st.kind.mapDecision fun d => { d with number := some net.decisions.size } }).linkAt
        StateKind.number? t =
      if s = t then some net.decisions.size else net.linkAt StateKind.number? t := by
    rw [linkAt_modify]
    split
    · subst t
      rw [hst, Option.bind_some, StateKind.number?_mapDecision, hdec, Option.map_some,
        Option.bind_some]
    · rfl
  intro i t
  change (net.decisions.push s)[i]? = some t ↔ (net.modify s _).linkAt StateKind.number? t = some i
  rw [hnumber, Array.getElem?_push]
  by_cases hi : i = net.decisions.size <;> by_cases hst : s = t
  · subst hi hst
    simp
  · -- the number is new, so no other state has it
    subst hi
    rw [if_pos rfl, if_neg hst, ← h]
    simp [hst]
  · subst hst
    rw [if_neg hi, if_pos rfl, h, hnone]
    simpa using Ne.symm hi
  · rw [if_neg hi, if_neg hst, h]

end numbers

end Network

end GrammarWalk
