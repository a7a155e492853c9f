/-!
The lines of a text. A line ends with a line feed, and with the carriage return before it if there
is one. What follows the last line feed is a line if there is any, and keeps a carriage return.
-/

namespace GrammarWalk.Text

/-- A line without the carriage return at its end. -/
def dropReturn (line : List Char) : List Char :=
  match line.getLast? with
  | some '\r' => line.dropLast
  | _ => line

/-- The lines of `text`, of which `line`, read backwards, is the start of the first. -/
def linesFrom (line : List Char) : List Char → List (List Char)
  | [] => if line.isEmpty then [] else [line.reverse]
  | '\n' :: text => dropReturn line.reverse :: linesFrom [] text
  | c :: text => linesFrom (c :: line) text

def lines (text : String) : List (List Char) := linesFrom [] text.toList

/-- The parts of a text between the characters `c`; one more than there are such characters. -/
def splitOn (c : Char) : List Char → List (List Char)
  | [] => [[]]
  | d :: text =>
    if d = c then [] :: splitOn c text
    else match splitOn c text with
      | part :: parts => (d :: part) :: parts
      | [] => [[d]]

end GrammarWalk.Text
