import GrammarWalk.Proofs.Network.Rewrite
import GrammarWalk.Proofs.Network.Weight

/-! Every rewrite makes a network smaller, so no chain of rewrites goes on for ever. -/

namespace GrammarWalk.Network

open Multiset (IsDershowitzMannaLT)

variable {free : Call → Edge → Prop} {net net' : Network} {s t i j : Nat} {st : State}
  {es es' : List Edge} {rank : Nat → Nat}

section total

variable {M : Type} [AddCommMonoid M] {g : State → M}

theorem Grows.total_eq (h : Grows net net' s st es')
    (hg : ∀ {t : Nat} {r : Option Nat} {m : Edge}, m.isLabelled = true → g (.matching t r m) = 0) :
    ∃ rest, total g net = rest + g st ∧
      total g net' = rest + g { st with optimized := some es' } := by
  let changed := net.modify s fun st => { st with optimized := some es' }
  have hsize : changed.states.size = net.states.size := size_modify
  have hold : net'.states.toList.take net.states.size = changed.states.toList := by
    apply List.ext_getElem?
    intro t
    rw [List.getElem?_take, Array.getElem?_toList, Array.getElem?_toList]
    split
    · rename_i ht
      by_cases hts : s = t
      · subst hts
        rw [h.changed, getElem?_modify_self h.state]
      · rw [getElem?_modify_of_ne hts, Array.getElem?_eq_getElem ht]
        exact h.kept (Array.getElem?_eq_getElem ht) (Ne.symm hts)
    · exact (Array.getElem?_eq_none (by omega)).symm
  have hnew : ((net'.states.toList.drop net.states.size).map g).sum = 0 := by
    refine List.sum_eq_zero fun x hx => ?_
    obtain ⟨st', hst', rfl⟩ := List.mem_map.1 hx
    obtain ⟨k, hk⟩ := List.mem_iff_getElem?.1 hst'
    rw [List.getElem?_drop, Array.getElem?_toList] at hk
    obtain ⟨m, r, rfl, hm, -⟩ := h.new hk (Nat.le_add_right _ _)
    exact hg hm
  have hsum : total g net' = total g changed := by
    rw [total, total, ← hold, ← List.take_append_drop net.states.size net'.states.toList,
      List.map_append, List.sum_append, hnew, add_zero]
    simp
  obtain ⟨rest, hold, hchanged⟩ := total_modify (g := g) h.state
  exact ⟨rest, hold, hsum.trans (hchanged _)⟩

end total

theorem not_passesOn_matching {r : Option Nat} {m : Edge} (hm : m.isLabelled = true) :
    passesOn (.matching t r m) = false := by
  simp [passesOn, State.matching, State.isSilent, (Edge.of_isLabelled hm).1]

theorem passesOn_optimized {l : Option (List Edge)}
    (h : (l.getD st.edges).all Edge.isPlain = st.followed.all Edge.isPlain) :
    passesOn { st with optimized := l } = passesOn st := by
  simp only [passesOn, State.isSilent, State.followed] at h ⊢
  rw [h]

/-- A rewrite to a list that is plain if the old one is, with edges into states that pass on only
where there was a way, leaves no more behind any state. -/
theorem Grows.shallower (h : Grows net net' s st es')
    (hplain : es'.all Edge.isPlain = st.followed.all Edge.isPlain)
    (hedge : ∀ e ∈ es', net.Passes e.target → passesOn st = true →
      Relation.TransGen net.PassHop s e.target) : Shallower net' net := by
  have hpass : passesOn { st with optimized := some es' } = passesOn st := passesOn_optimized hplain
  have hiff {t : Nat} : net'.Passes t ↔ net.Passes t := by
    constructor
    · rintro ⟨st', hst', hp⟩
      by_cases ht : t < net.states.size
      · rcases h.cases hst' ht with ⟨rfl, rfl⟩ | ⟨-, hst⟩
        · exact ⟨st, h.state, hpass ▸ hp⟩
        · exact ⟨st', hst, hp⟩
      · obtain ⟨m, r, rfl, hm, -⟩ := h.new hst' (Nat.not_lt.1 ht)
        rw [not_passesOn_matching hm] at hp
        exact nomatch hp
    · rintro ⟨old, hold, hp⟩
      by_cases hts : t = s
      · subst hts
        obtain rfl := Option.some.inj (hold.symm.trans h.state)
        exact ⟨_, h.changed, hpass.trans hp⟩
      · exact ⟨old, h.kept hold hts, hp⟩
  refine ⟨hiff, ?_⟩
  rintro a b ⟨hb, st', hst', hp, e, he, rfl⟩
  have hb := hiff.1 hb
  have ha : a < net.states.size := (hiff.1 ⟨st', hst', hp⟩).lt_size
  rcases h.cases hst' ha with ⟨rfl, rfl⟩ | ⟨-, hst⟩
  · exact hedge e he hb (hpass ▸ hp)
  · exact .single ⟨hb, st', hst, hp, e, he, rfl⟩

theorem isMarked_plain : isMarked (.plain t) = false := rfl

theorem isMarked_of_isPlain {e : Edge} (h : e.isPlain = true) : isMarked e = false := by
  simp [isMarked, h]

section replaced

theorem Splices.passesOn {e : Edge} {m : State} (h : net.Splices s e m) : passesOn m = true := by
  simp [Network.passesOn, h.basic, h.silent, List.all_eq_true.2 h.hops]

theorem Splices.weights_lt {e : Edge} {m : State} (h : net.Splices s e m) :
    IsDershowitzMannaLT (weights net.behind (m.followed.map fun hop => .plain hop.target))
      (weights net.behind [e]) := by
  rw [weights_silent (Edge.isSilent_of_isPlain h.plain).1]
  refine ⟨0, _, {net.behind e.target}, Multiset.singleton_ne_zero _, (zero_add _).symm,
    (zero_add _).symm, fun y hy => ?_⟩
  obtain ⟨hop, hhop, rfl⟩ : ∃ hop ∈ m.followed, net.behind hop.target = y := by
    simpa [weights, Edge.plain, Edge.isSilent, Edge.target] using hy
  exact ⟨_, Multiset.mem_singleton_self _, behind_lt h.state h.passesOn h.clear hhop⟩

theorem Replaced.countP_marked (h : Replaced free net net' s i j es es') :
    es'.countP isMarked + i = es.countP isMarked := by
  induction h with
  | nil => rfl
  | keep _ ih =>
    simp only [List.countP_cons]
    omega
  | @splice i j e m es es' hs _ ih =>
    have hhops : (m.followed.map fun hop => Edge.plain hop.target).countP isMarked = 0 := by
      simp [List.countP_eq_zero, isMarked_plain]
    rw [List.countP_append, hhops, List.countP_cons, isMarked_of_isPlain hs.plain]
    simpa using ih
  | @inline i j c fresh m es es' _ _ ih =>
    have hcall : isMarked (.call c) = true := rfl
    simp only [List.countP_cons, isMarked_plain, hcall, if_true, Bool.false_eq_true, if_false]
    omega

theorem Replaced.all_plain (h : Replaced free net net' s i j es es') (hi : i = 0) :
    es'.all Edge.isPlain = es.all Edge.isPlain := by
  induction h with
  | nil => rfl
  | keep _ ih => simp only [List.all_cons, ih hi]
  | splice hs _ ih =>
    rw [List.all_append, List.all_cons, hs.plain, ih hi]
    simp [Edge.plain, Edge.isPlain]
  | inline => cases hi

theorem Replaced.weights_lt (h : Replaced free net net' s i j es es') (hi : i = 0) :
    (j = 0 ∧ es' = es) ∨ IsDershowitzMannaLT (weights net.behind es') (weights net.behind es) := by
  induction h with
  | nil => exact .inl ⟨rfl, rfl⟩
  | @keep i j e es es' _ ih =>
    refine (ih hi).imp (fun ⟨hj, he⟩ => ⟨hj, by rw [he]⟩) fun hlt => ?_
    rw [weights_cons e es', weights_cons e es]
    exact hlt.add_left
  | @splice i j e m es es' hs _ ih =>
    right
    have hfirst : IsDershowitzMannaLT
      (weights net.behind ((m.followed.map fun hop => .plain hop.target) ++ es'))
        (weights net.behind [e] + weights net.behind es') := by
      rw [weights_append]
      exact hs.weights_lt.add_right
    rw [weights_cons]
    obtain ⟨-, heq⟩ | hlt := ih hi
    · exact heq ▸ hfirst
    · exact hfirst.trans hlt.add_left
  | inline => exact nomatch hi

end replaced

theorem Branch.behind_eq {e b : Edge} (h : net.Branch e b) : net.behind e.target = 0 := by
  obtain ⟨st, hst, hf⟩ := h.state
  refine behind_of_not_passes fun ⟨st', hst', hp⟩ => ?_
  obtain rfl := Option.some.inj (hst.symm.trans hst')
  have hsilent := (Edge.of_isLabelled h.labelled).1
  simp only [passesOn, hf, List.all_cons, Bool.and_eq_true] at hp
  rw [(Edge.isSilent_of_isPlain hp.2.1).1] at hsilent
  exact nomatch hsilent

theorem Branch.plain_of_unmarked {e b : Edge} (h : net.Branch e b) (hm : isMarked e = false) :
    e.isPlain = true := by
  have := h.epsilon
  cases e <;> simp_all [isMarked, Edge.isEpsilon, Edge.isSilent]

section grows

variable (g : Grows net net' s st es')
include g

theorem Grows.marked_eq :
    ∃ rest, net.marked = rest + st.followed.countP isMarked ∧
      net'.marked = rest + es'.countP isMarked :=
  g.total_eq fun hm => by
    simp [State.matching, State.followed, isMarked, (Edge.of_isLabelled hm).1]

theorem Grows.weight_lt
    (h : IsDershowitzMannaLT (weights net.behind es') (weights net.behind st.followed)) :
    IsDershowitzMannaLT (total (fun st => weights net.behind st.followed) net') net.weight := by
  obtain ⟨rest, hold, hnew⟩ :=
    g.total_eq (g := fun st => weights net.behind st.followed) fun hm => by
    simp [State.matching, State.followed, weights, (Edge.of_isLabelled hm).1]
  rw [weight, hold, hnew]
  exact h.add_left

theorem Grows.smaller_of_replaced (h : Replaced free net net' s i j st.followed es')
    (hij : 0 < i + j) : Smaller net' net := by
  obtain ⟨rest, hold, hnew⟩ := g.marked_eq
  have hcount := h.countP_marked
  obtain hi | hi := Nat.eq_zero_or_pos i
  · have hlt := (h.weights_lt hi).resolve_left fun hj => by omega
    refine .of_weight (by omega) (g.shallower (h.all_plain hi) fun e he hpass hst => ?_)
      (g.weight_lt hlt)
    have hhop {f : Edge} (hf : f ∈ st.followed) (hp : net.Passes f.target) :
        net.PassHop s f.target :=
      ⟨hp, st, g.state, hst, f, hf, rfl⟩
    rcases h.mem_of he with he | ⟨f, hf, mid, hmid, hop, hh, rfl⟩ | ⟨c, fresh, m, -, hin, rfl⟩
    · exact .single (hhop he hpass)
    · have hmid' : net.Passes f.target := ⟨mid, hmid.state, hmid.passesOn⟩
      exact .tail (.single (hhop hf hmid')) ⟨hpass, mid, hmid.state, hmid.passesOn, hop, hh, rfl⟩
    · exact absurd hpass.lt_size (Nat.not_lt.2 hin.beyond)
  · exact .of_marked (by omega)

theorem Grows.smaller_of_merged {fresh : Nat} {m : Edge}
    (h : Merged net net' s st.followed es' fresh m) : Smaller net' net := by
  obtain ⟨members, rest, hperm, rfl, htwo, hmembers⟩ := h.parts
  obtain ⟨others, hold, hnew⟩ := g.marked_eq
  have hcount := hperm.countP_eq isMarked
  simp only [List.countP_append, List.countP_singleton, isMarked_plain] at hcount hnew
  obtain hzero | hpos := Nat.eq_zero_or_pos (members.countP isMarked)
  · have hplain {e : Edge} (he : e ∈ members) : e.isPlain = true := by
      obtain ⟨b, hb, -⟩ := hmembers e he
      exact hb.plain_of_unmarked (by simpa using List.countP_eq_zero.1 hzero e he)
    have hzeros {e : Edge} (he : e ∈ members) : weights net.behind [e] = {0} := by
      obtain ⟨b, hb, -⟩ := hmembers e he
      rw [weights_silent (Edge.isSilent_of_isPlain (hplain he)).1, hb.behind_eq]
    have hfresh : ¬ net.Passes fresh := fun hp => absurd hp.lt_size (Nat.not_lt.2 h.beyond)
    have hall : members.all Edge.isPlain = true := List.all_eq_true.2 fun e => hplain
    refine .of_weight (by simp at hnew; omega) (g.shallower ?_ fun e he hpass hst => ?_)
      (g.weight_lt ?_)
    · rw [hperm.all_eq, List.all_append, List.all_append, hall]
      simp [Edge.plain, Edge.isPlain]
    · rcases List.mem_append.1 he with he | he
      · exact .single ⟨hpass, st, g.state, hst, e, hperm.mem_iff.2 (List.mem_append_right _ he),
          rfl⟩
      · obtain rfl := List.mem_singleton.1 he
        exact absurd hpass hfresh
    · obtain ⟨a, b, more, rfl⟩ : ∃ a b more, members = a :: b :: more := by
        obtain _ | ⟨a, _ | ⟨b, more⟩⟩ := members
        · simp at htwo
        · simp at htwo
        · exact ⟨a, b, more, rfl⟩
      have hnew : weights net.behind [.plain fresh] = {0} := by
        rw [weights_silent rfl, Edge.target_plain, behind_of_not_passes hfresh]
      refine ⟨weights net.behind rest + {0}, 0, {0} + weights net.behind more, ?_, ?_, ?_, by simp⟩
      · simp
      · rw [weights_append, hnew, add_zero]
      · rw [weights_perm hperm, weights_append, weights_cons a, weights_cons b,
          hzeros (by simp), hzeros (by simp)]
        simp only [add_comm, add_left_comm, add_assoc]
  · exact .of_marked (by simp at hnew; omega)

end grows

theorem Rewrite.smaller (h : Rewrite free net net') : Smaller net' net := by
  cases h with
  | replace g hr hij => exact g.smaller_of_replaced hr hij
  | merge g hm => exact g.smaller_of_merged hm

end GrammarWalk.Network
