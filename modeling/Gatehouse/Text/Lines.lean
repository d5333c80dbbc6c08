/-!
# Lines of a text

A line ends with a newline, and a carriage return right before that newline belongs to the line
end.  What stands after the last newline is a line of its own unless it is empty, and there a
carriage return is text.
-/

namespace Gatehouse.Text

/-- The line whose characters, last one first, stand before a newline. -/
def finishLine : List Char → List Char
  | '\r' :: r => r.reverse
  | r => r.reverse

/-- The lines of a text of which `before` is already read, last character first. -/
def linesAfter (before : List Char) : List Char → List (List Char)
  | [] => if before.isEmpty then [] else [before.reverse]
  | c :: r => if c = '\n' then finishLine before :: linesAfter [] r else linesAfter (c :: before) r

/-- The lines of a text, without their ends. -/
def lines (s : List Char) : List (List Char) :=
  linesAfter [] s

@[simp] theorem lines_nil : lines [] = [] := rfl

end Gatehouse.Text
