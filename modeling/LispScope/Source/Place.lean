import LispScope.Span

/-!
# Places in a text

Where a character stands: its byte offset, and its line and column counted from one. Only a line
feed begins a new line, and a column is one character wide whatever the character.
-/
namespace LispScope.Source

/-- A position between two characters of a text. -/
structure Place where
  /-- Number of bytes before the position. -/
  offset : Nat
  /-- Line, counted from one. -/
  line : Nat
  /-- Column, counted from one. -/
  col : Nat
deriving DecidableEq, Inhabited, Repr

namespace Place

/-- The place at which a text begins. -/
def origin : Place := ⟨0, 1, 1⟩

def after (place : Place) (c : Char) : Place :=
  if c = '\n' then ⟨place.offset + c.utf8Size, place.line + 1, 1⟩
  else ⟨place.offset + c.utf8Size, place.line, place.col + 1⟩

/-- The span that begins at the place and ends before the given offset. -/
def spanTo (place : Place) (stop : Nat) : Span :=
  { start := place.offset, stop := stop, line := place.line, col := place.col }

/-- The text `line:col`. -/
def text (place : Place) : String := toString place.line ++ ":" ++ toString place.col

end Place

end LispScope.Source
