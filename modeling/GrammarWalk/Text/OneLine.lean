/-!
Text for messages, with line breaks and tabs written as escapes.
-/

namespace GrammarWalk.Text

def oneLine (text : String) : String :=
  String.ofList <| text.toList.flatMap fun
    | '\n' => ['\\', 'n']
    | '\r' => ['\\', 'r']
    | '\t' => ['\\', 't']
    | c => [c]

end GrammarWalk.Text
