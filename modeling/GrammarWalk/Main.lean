import GrammarWalk.Arguments
import GrammarWalk.Listing
import GrammarWalk.Screen.Terminal
import GrammarWalk.Workbench.View

/-!
The command: opens a workbench over files and takes keys, line by line, until one of them leaves it.
-/

namespace GrammarWalk.Command

def orFail {ε α : Type} (message : ε → String) : Except ε α → IO α
  | .ok a => return a
  | .error e => throw (.userError (message e))

def faultMessage : Fault → String
  | .dangling => "the networks name a state or rule that does not exist"
  | .unfinished => "a search does not come to an end"

def readText (file : String) : IO String := do
  try IO.FS.readFile file
  catch e => throw (.userError s!"cannot read '{file}': {e}")

def readListing (file : String) : IO Listing := do
  orFail (fun e => s!"{file}: {e.message}") (Listing.parse (← readText file))

def openWorkbench (args : Arguments) : IO Workbench := do
  let parser ← readListing args.parser
  let lexer ← readListing args.lexer
  let options : LoadOptions := { optimize := args.optimize }
  let parserNet ← orFail LoadError.message (parser.load options)
  let lexerNet ← orFail LoadError.message (lexer.load options)
  let text ← (args.grammar.mapM readText : IO (Option String))
  let grammar : Grammar := match args.grammar, text with
    | some name, some text => .ofText name text parser.rules parser.vocabulary
    | _, _ => .ofNames parser.rules parser.vocabulary
  let rule ← match args.rule with
    | none => pure 0
    | some name => match grammar.ruleIndex? name with
      | some rule => pure rule
      | none => throw (.userError s!"unknown rule '{name}'")
  let input ← readText args.input
  let outline := Outline.ofRules grammar.source parser.rules
  let session ← orFail Misuse.message
    (Session.create parserNet lexerNet grammar outline args.stopOnEntry)
  let w : Workbench := { session, text := text.getD "", input, rule }
  let (refusal, w) ← orFail faultMessage w.start
  match refusal with
  | none => return w
  | some m => throw (.userError m.message)

/-- The size of the screen in one direction, as the environment gives it. -/
def screenSize (name : String) (default : Nat) : IO Nat := do
  return ((← IO.getEnv name).bind String.toNat?).getD default

/-- Shows the workbench and presses the keys of the next line. -/
partial def interact (width height : Nat) (keys : IO.FS.Stream) (w : Workbench) : IO Unit := do
  let (canvas, w) ← orFail faultMessage (w.draw width height)
  IO.println canvas.show
  if w.quit then return
  let line ← keys.getLine
  if line.isEmpty then return
  let w ← orFail faultMessage ((Key.ofText line.toList).foldlM (fun (w : Workbench) k =>
    if w.quit then .ok w else w.press k) w)
  interact width height keys w

/-- Runs the command; the result is its exit code. -/
def run (args : List String) : IO UInt32 := do
  match Arguments.parse args with
  | .error e =>
    IO.eprintln s!"error: {e.message}"
    return 2
  | .ok args =>
    try
      let w ← openWorkbench args
      interact (← screenSize "COLUMNS" 80) (← screenSize "LINES" 24) (← IO.getStdin) w
      return 0
    catch e =>
      IO.eprintln s!"Error: {e}"
      return 1

end GrammarWalk.Command

def main (args : List String) : IO UInt32 := GrammarWalk.Command.run args
