import GrammarWalk.Panel.Tokens
import GrammarWalk.Workbench.Basic

/-!
The screen of a workbench: source and output on the left, stack and tokens on the right, the status
below. Drawing settles the scroll positions.
-/

namespace GrammarWalk.Workbench

open Screen

/-- The line on which the innermost rule is declared; zero if there is none. -/
def currentLine (w : Workbench) : Nat :=
  ((w.session.callStack.current?.bind fun f => w.session.grammar.rules[f.rule]?).map
    (·.declared)).getD 0

def sourcePanel (w : Workbench) : SourcePanel where
  name := w.session.grammar.source
  text := w.text
  current := w.currentLine
  cursor := w.cursor
  breakpoints := w.breakpointLines
  focused := w.focus = .source

def outputPanel (w : Workbench) : OutputPanel where
  messages := w.output
  focused := w.focus = .output

def stackPanel (w : Workbench) : StackPanel where
  callStack := w.session.callStack
  outline := w.session.outline
  state := w.session.state?
  focused := w.focus = .stack

def tokensPanel (w : Workbench) : TokensPanel where
  tokens := w.session.tokens?
  vocabulary := w.session.grammar.vocabulary
  focused := w.focus = .tokens

def statusBar (w : Workbench) : StatusBar where
  message := w.status
  ruleName := (w.session.callStack.current?.map (·.name)).getD "-"
  tokenIndex := (w.session.tokens?.map (·.position)).getD 0
  tokenCount := (w.session.tokens?.map (·.size)).getD 0
  errorCount := w.session.failures.length + w.session.diagnostics.length
  progress := w.progress

def draw (w : Workbench) (width height : Nat) : Except Fault (Canvas × Workbench) := do
  let screen : Area := { width, height }
  let panels := screen.takeRows (height - 1)
  let middle := Area.share 60 panels.width
  let left := panels.takeColumns middle
  let right := panels.dropColumns middle
  let leftRows := Area.share 70 panels.height
  let rightRows := Area.share 50 panels.height
  let c := Canvas.blank width height
  let (sourceScroll, c) := w.sourcePanel.draw (left.takeRows leftRows) w.sourceScroll c
  let (outputScroll, c) := w.outputPanel.draw (left.dropRows leftRows) w.outputScroll c
  let (stackScroll, c) ← w.stackPanel.draw (right.takeRows rightRows) w.stackScroll c
  let (tokensScroll, c) := w.tokensPanel.draw (right.dropRows rightRows) w.tokensScroll c
  let c := w.statusBar.draw (screen.dropRows (height - 1)) c
  return (c, { w with sourceScroll, outputScroll, stackScroll, tokensScroll })

end GrammarWalk.Workbench
