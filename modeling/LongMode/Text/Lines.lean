/-!
The lines of a text. A line ends at a line feed; a carriage return right in front of the line feed
belongs to the end of the line.
-/

namespace LongMode.Text

def withoutReturn (line : List Char) : List Char :=
  if line.getLast? = some '\r' then line.dropLast else line

/-- The lines of a text. `line` holds the characters of the first one so far, the last one first.
What follows the last line feed is a line if there is any of it. -/
def linesFrom (line : List Char) : List Char → List (List Char)
  | [] => if line.isEmpty then [] else [line.reverse]
  | c :: rest =>
    if c = '\n' then withoutReturn line.reverse :: linesFrom [] rest else linesFrom (c :: line) rest

def lines (text : List Char) : List (List Char) := linesFrom [] text

/-- A text with `margin` in front of each of its lines after the first. -/
def hanging (margin : List Char) (text : List Char) : List Char :=
  text.flatMap fun c => if c = '\n' then '\n' :: margin else [c]

end LongMode.Text
