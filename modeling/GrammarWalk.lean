import GrammarWalk.Debug.Session
import GrammarWalk.Grammar.Basic
import GrammarWalk.Listing
import GrammarWalk.Load
import GrammarWalk.Main
import GrammarWalk.Network.Bypass
import GrammarWalk.Network.LookAhead
import GrammarWalk.Network.Optimize
import GrammarWalk.Network.ReturnEdges
import GrammarWalk.Network.TailCall
import GrammarWalk.Network.WellFormed
import GrammarWalk.NetworkCache
import GrammarWalk.Parse.Walker
import GrammarWalk.Proofs.Debug.Breakpoints
import GrammarWalk.Proofs.Debug.CallStack
import GrammarWalk.Proofs.Debug.Derivations
import GrammarWalk.Proofs.Debug.Events
import GrammarWalk.Proofs.Debug.FinishedTree
import GrammarWalk.Proofs.Debug.Frames
import GrammarWalk.Proofs.Debug.Mismatches
import GrammarWalk.Proofs.Debug.Precedence
import GrammarWalk.Proofs.Debug.Recovery
import GrammarWalk.Proofs.Debug.Returns
import GrammarWalk.Proofs.Load.Absent
import GrammarWalk.Proofs.Load.Conservative
import GrammarWalk.Proofs.Load.Delimited
import GrammarWalk.Proofs.Load.Rules
import GrammarWalk.Proofs.Load.Stages
import GrammarWalk.Proofs.Load.Structure
import GrammarWalk.Proofs.Load.TailCalls
import GrammarWalk.Proofs.Load.Untouched
import GrammarWalk.Proofs.Network.Inlining
import GrammarWalk.Proofs.Network.LookAhead
import GrammarWalk.Proofs.Network.ReturnEdges
import GrammarWalk.Proofs.NetworkCache
import GrammarWalk.Proofs.Outline.Search
import GrammarWalk.Proofs.Parse.Course
import GrammarWalk.Proofs.SymbolSet.Built
import GrammarWalk.Proofs.Tokenizer.Ends
import GrammarWalk.Proofs.Tokenizer.Optimized
import GrammarWalk.Proofs.Tokenizer.Stream
import GrammarWalk.SymbolSet.Lemmas
import GrammarWalk.SymbolSet.Text
import GrammarWalk.Text.Quoted
import GrammarWalk.Tokenizer.Scan
import GrammarWalk.Wire.Encode
import GrammarWalk.Proofs.Debug.Completeness
import GrammarWalk.Proofs.Debug.Bindings
import GrammarWalk.Proofs.Grammar.RuleText
import GrammarWalk.Proofs.Listing
import GrammarWalk.Proofs.Panel.Highlight
import GrammarWalk.Proofs.Workbench
