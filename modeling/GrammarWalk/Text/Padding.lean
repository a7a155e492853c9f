/-!
Text brought to a least width with blanks. Text that is wide enough stays as it is.
-/

namespace GrammarWalk.Text

def padLeft (width : Nat) (text : String) : String :=
  String.ofList (List.replicate (width - text.length) ' ' ++ text.toList)

def padRight (width : Nat) (text : String) : String :=
  String.ofList (text.toList ++ List.replicate (width - text.length) ' ')

end GrammarWalk.Text
