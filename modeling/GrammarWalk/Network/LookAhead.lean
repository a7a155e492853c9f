import GrammarWalk.Network.Basic

/-!
The symbols that can come next. `nextSymbols` looks no further than the end of the state's own rule,
which shows in the set as `Symbol.ruleEnd`; `expectedSymbols` goes on in the calling rules.
-/

namespace GrammarWalk.Network

/-- What a look-ahead search has seen. -/
structure LookAhead where
  /-- The states seen, each with the follow states of the calls it was reached through. -/
  busy : List (Nat × List Nat) := []
  /-- The rules that the search is inside of and does not call again. -/
  called : List Nat := []
  found : SymbolSet := ∅
deriving Repr, Inhabited

/-- Searches from `s`, where the calls made so far go on in the states of `follow`, last call
first. -/
def lookFrom (net : Network) : Nat → Nat → List Nat → LookAhead → Except Fault LookAhead
  | 0, _, _, _ => .error .unfinished
  | fuel + 1, s, follow, look => do
    if look.busy.contains (s, follow) then return look
    let look := { look with busy := (s, follow) :: look.busy }
    let st ← net.state s
    if st.isRuleStop then
      match follow with
      | [] => return { look with found := look.found.insert Symbol.ruleEnd }
      | caller :: follow =>
        let leave (called : List Nat) := (st.rule.elim called fun r => called.filter (· ≠ r))
        let enter (called : List Nat) := (st.rule.elim called fun r => called.insert r)
        let look ← net.lookFrom fuel caller follow { look with called := leave look.called }
        return { look with called := enter look.called }
    else
      st.edges.foldlM (fun look e =>
        match e with
        | .call c =>
          if look.called.contains c.rule then return look
          else do
            let look ← net.lookFrom fuel c.start (c.follow :: follow)
              { look with called := c.rule :: look.called }
            return { look with called := look.called.filter (· ≠ c.rule) }
        | .epsilon .. | .predicate .. | .precedence .. | .action .. =>
          net.lookFrom fuel e.target follow look
        | .atom .. | .range .. | .set .. | .notSet .. | .wildcard .. =>
          match e.accepted? Symbol.minToken net.maxToken with
          | some symbols => return { look with found := look.found ∪ symbols }
          | none => return look) look

/--
A bound on the depth of a look-ahead search. No pair of a state and a stack of follow states comes
twice on one path, and a stack holds one entry for each rule the search is inside of.
-/
def lookBound (net : Network) : Nat := Nat.pow (net.states.size + 1) (net.edgeCount + 1) + 1

/-- The symbols that can follow in state `s` within its rule, `Symbol.ruleEnd` for the rule's
end. -/
def nextSymbols (net : Network) (s : Nat) : Except Fault SymbolSet :=
  (net.lookFrom net.lookBound s [] {}).map (·.found)

/-- Goes on in one calling rule after the other while the last one looked at can end. -/
def expectedIn (net : Network) : List Nat → SymbolSet → SymbolSet → Except Fault SymbolSet
  | [], following, expected =>
    return if following.contains Symbol.ruleEnd then expected.insert Symbol.eof else expected
  | caller :: callers, following, expected =>
    if following.contains Symbol.ruleEnd then do
      let following ← net.nextSymbols caller
      net.expectedIn callers following ((expected ∪ following).erase Symbol.ruleEnd)
    else return expected

/--
The symbols acceptable in state `s` when the rules it is inside of go on in the states of `follow`,
outermost first. The end of input is among them when every rule can end.
-/
def expectedSymbols (net : Network) (s : Nat) (follow : List Nat) : Except Fault SymbolSet := do
  let following ← net.nextSymbols s
  if following.contains Symbol.ruleEnd then
    net.expectedIn follow.reverse following (following.erase Symbol.ruleEnd)
  else return following

end GrammarWalk.Network
