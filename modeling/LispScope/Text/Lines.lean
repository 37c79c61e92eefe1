/-!
# Lines of a text

A line ends at a line feed, and a carriage return right before that line feed belongs to the
ending. A text that ends with a line feed has no empty last line. A carriage return elsewhere is an
ordinary character of its line.
-/
namespace LispScope.Text

/-- Drops one carriage return that stands last; the line is given from its end. -/
def dropReturn : List Char → List Char
  | '\r' :: rest => rest
  | reversed => reversed

/-- The lines of the remaining characters, when `reversed` holds the current line from its end. -/
def linesFrom (reversed : List Char) : List Char → List String
  | [] => if reversed.isEmpty then [] else [String.ofList reversed.reverse]
  | '\n' :: rest => String.ofList (dropReturn reversed).reverse :: linesFrom [] rest
  | c :: rest => linesFrom (c :: reversed) rest

/-- The lines of a text, without their endings. -/
def lines (text : String) : List String := linesFrom [] text.toList

/-- The line with the given number, counted from one. -/
def line? (text : String) : Nat → Option String
  | 0 => none
  | number + 1 => (lines text)[number]?

end LispScope.Text
