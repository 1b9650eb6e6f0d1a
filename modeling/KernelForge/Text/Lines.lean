/-!
# Lines

Cuts a text into its lines. A line ends at a line feed, and a carriage return directly before the
line feed belongs to the ending. What follows the last line feed is a line if it is not empty; a
carriage return at its end stays, as no line feed follows.
-/
namespace KernelForge.Text

/-- Drops the carriage return that a reversed line starts with. -/
def dropReturn : List Char → List Char
  | '\r' :: rest => rest
  | line => line

/-- The lines of a text whose current line starts with the reverse of `current`. -/
def linesFrom (current : List Char) : List Char → List (List Char)
  | [] => if current.isEmpty then [] else [current.reverse]
  | c :: rest =>
    if c = '\n' then (dropReturn current).reverse :: linesFrom [] rest
    else linesFrom (c :: current) rest

def lines (text : List Char) : List (List Char) := linesFrom [] text

end KernelForge.Text
