import GrammarWalk.Network.Basic

/-!
Merging, on the optimized edge lists of a parser: branches of a decision that each match one symbol
and meet at the same block end become one branch that matches a set.
-/

namespace GrammarWalk.Network

/-- The one match of the branch that edge `e` leads to, if it ends in a block end. -/
def branchMatch (net : Network) (e : Edge) : Except Fault (Option Edge) :=
  match e with
  | .epsilon target _ => do
    match (← net.state target).followed with
    | [matched] =>
      if matched.isLabelled then
        return if (← net.state matched.target).kind.isBlockEnd then some matched else none
      else return none
    | _ => return none
  | _ => return none

def edgeOver (target : Nat) (symbols : SymbolSet) : Edge :=
  match symbols.spans with
  | [s] => if s.lo = s.hi then .atom target s.lo else .range target s.lo s.hi
  | _ => .set target symbols

/-- Merges the branches of one decision and counts the edges that are gone. -/
def mergeBranches (count : Nat) (net : Network) (s : Nat) : Except Fault (Nat × Network) := do
  let st ← net.state s
  let branches ← st.followed.mapM fun e => return (e, ← net.branchMatch e)
  match branches.findSome? (·.2) with
  | none => return (count, net)
  | some first =>
    let stop := first.target
    let joins (b : Edge × Option Edge) : Bool := b.2.any (·.target == stop)
    let members := branches.filter joins
    if members.length ≤ 1 then return (count, net)
    let symbols := members.foldl (fun set b => set ∪ ((b.2.bind Edge.label?).getD ∅)) ∅
    let merged := edgeOver stop symbols
    let (fresh, net) := net.addState .basic st.rule
    let net := net.modify fresh fun st => { st with edges := [merged], optimized := some [merged] }
    let rest := (branches.filter (!joins ·)).map (·.1)
    return (count + (members.length - 1), net.setFollowed s (rest ++ [.plain fresh]))

/-- Merges in every decision of a parser; a lexer depends on the order of its branches. -/
def mergeMatches (net : Network) : Except Fault (Nat × Network) :=
  match net.kind with
  | .lexer => return (0, net)
  | .parser =>
    net.decisions.toList.foldlM (fun (count, net) s => mergeBranches count net s) (0, net)

end GrammarWalk.Network
