import GrammarWalk.Proofs.Load.Language
import GrammarWalk.Proofs.Load.Safe
import GrammarWalk.Proofs.Parse.Choice

/-! What is chosen at the decisions of a loaded network. -/

namespace GrammarWalk

open Network Wire Choice

theorem loadWords_inRange {words : List Word} {options : LoadOptions} {net : Network}
    (hload : loadWords words options = .ok net) : net.InRange :=
  (safe_loadWords words options).keeps net hload

theorem isRuleStop_of_decision {st : State} (h : st.kind.decision?.isSome = true) :
    st.isRuleStop = false := by
  cases hk : st.kind <;> simp_all [StateKind.decision?, State.isRuleStop]

theorem kind_ne_invalid_of_decision {st : State} (h : st.kind.decision?.isSome = true) :
    st.kind ≠ .invalid := by
  intro hk
  rw [hk] at h
  cases h

/--
At a decision of a verified network there is always an answer, whatever the tokens, the rules being
parsed and the level of precedence. If some alternatives have a path over all the tokens ahead, then
the answer is the least of these; and an alternative that is the answer is one of the decision's.
-/
theorem choose_least_viable {words : List Word} {options : LoadOptions} {net : Network}
    {decision : Nat}
    {st : State} (hverify : options.verify = true) (hload : loadWords words options = .ok net)
    (hst : net.states[decision]? = some st) (hdecision : st.kind.decision?.isSome = true)
    (hseveral : 1 < st.edges.length) (tokens : List Token) (consumed : Nat) {follow : Array Nat}
    (hfollow : ∀ q ∈ follow, q < net.states.size) (precedence : Int) :
    let s := Setting.mk net (Tokens.advance^[consumed] (.ofList tokens)) follow precedence
    ∃ choice, choose s decision = .ok choice ∧
      ((viable s decision st).Nonempty → ∃ a, IsLeast (viable s decision st) a ∧ choice = .ok a) ∧
      ∀ a, choice = .ok a → a ∈ Set.Icc 1 st.edges.length := by
  intro s
  have hrange : s.InRange := ⟨loadWords_inRange hload, hfollow⟩
  have hsilent (e : Edge) : e ∈ st.edges → e.isSilent = true :=
    (loadWords_checked hverify hload).isSilent_of_mem hst
      (kind_ne_invalid_of_decision hdecision) hseveral
  obtain ⟨choice, hchoice, hleast, hamong⟩ :=
    returns_choose hrange (Tokens.ready_advance tokens consumed) hst
    (isRuleStop_of_decision hdecision) hsilent
  exact ⟨choice, hchoice, hleast, hamong⟩

/-- One rule: the symbols 1 and 2, or 1 and 3. -/
def commonPrefix : List Word :=
  parserWords [[2, 0], [3, 0, 6], [1, 0], [1, 0], [1, 0], [1, 0], [8, 0], [7, 0]] [0]
    [eps 0 1, eps 1 2, eps 1 4, atom 2 3 1, atom 3 6 2, atom 4 5 1, atom 5 6 3, eps 6 7] [1]

/-- A token to read, of which only the type matters. -/
def tokenOf (type : Int) : Token :=
  { type, channel := Token.defaultChannel, start := 0, stop := 0, line := 0, column := 0,
    index := 0, text := "" }

theorem choose_commonPrefix :
    let net := loaded commonPrefix
    let st := (net.states[1]?).getD default
    loadWords commonPrefix { optimize := false } = .ok net ∧ net.states[1]? = some st ∧
      st.kind.decision?.isSome = true ∧ 1 < st.edges.length ∧
      (∀ q ∈ (#[] : Array Nat), q < net.states.size) ∧
      let s := Setting.mk net (Tokens.advance^[0] (.ofList [tokenOf 1, tokenOf 3])) #[] 0
      ∃ choice, choose s 1 = .ok choice ∧
        ((viable s 1 st).Nonempty → ∃ a, IsLeast (viable s 1 st) a ∧ choice = .ok a) ∧
        ∀ a, choice = .ok a → a ∈ Set.Icc 1 st.edges.length := by
  intro net st
  have hload : loadWords commonPrefix { optimize := false } = .ok net :=
    loadWords_loaded (by decide +kernel)
  have hst : net.states[1]? = some st := by decide +kernel
  have hdecision : st.kind.decision?.isSome = true := by decide +kernel
  have hseveral : 1 < st.edges.length := by decide +kernel
  have hfollow : ∀ q ∈ (#[] : Array Nat), q < net.states.size := by simp
  exact ⟨hload, hst, hdecision, hseveral, hfollow,
    choose_least_viable rfl hload hst hdecision hseveral [tokenOf 1, tokenOf 3] 0 hfollow 0⟩

/-- Two tokens ahead tell the alternatives apart. -/
example :
  choose (.mk (loaded commonPrefix) (.ofList [tokenOf 1, tokenOf 3]) #[] 0) 1 = .ok (.ok 2) := by
  decide +kernel

end GrammarWalk
