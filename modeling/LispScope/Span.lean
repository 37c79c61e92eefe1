/-!
# Source spans

A span is a half-open range of byte offsets together with the line and column of its first
character, which is what a report points at. Lines and columns count from one, so line zero marks
a *synthetic* span: one that belongs to no place of the source. Merging two spans covers both and
ignores a synthetic side.
-/
namespace LispScope

/-- A range of the source text, with the place of its first character. -/
structure Span where
  /-- Byte offset of the first character. -/
  start : Nat
  /-- Byte offset just past the last character. -/
  stop : Nat
  /-- Line of the first character, counted from one; zero for a synthetic span. -/
  line : Nat
  /-- Column of the first character in its line, counted from one. -/
  col : Nat
  /-- The file, when it is known. -/
  file : Option String := none
deriving DecidableEq, Inhabited, Repr

namespace Span

/-- The span of what stands nowhere in the source. -/
def synthetic : Span := ⟨0, 0, 0, 0, none⟩

/-- Whether the span belongs to no place of the source. -/
def isSynthetic (span : Span) : Bool := span.line == 0

/-- Number of bytes covered; a reversed range covers none. -/
def length (span : Span) : Nat := span.stop - span.start

/-- Whether no byte is covered. -/
def isEmpty (span : Span) : Bool := span.length == 0

/-- Whether the first span begins no later than the second, by line and then by column. -/
def beginsBy (left right : Span) : Bool :=
  left.line < right.line || (left.line == right.line && left.col ≤ right.col)

/-- The least span that covers both; a synthetic side counts for nothing, and the file is the
first one present. -/
def merge (left right : Span) : Span :=
  if left.isSynthetic then right
  else if right.isSynthetic then left
  else
    let first := if left.beginsBy right then left else right
    { start := min left.start right.start
      stop := max left.stop right.stop
      line := first.line
      col := first.col
      file := left.file <|> right.file }

/-- The place that a report names: `line:col`, after the file if there is one. -/
def text (span : Span) : String :=
  let place := toString span.line ++ ":" ++ toString span.col
  match span.file with
  | some file => file ++ ":" ++ place
  | none => place

instance : ToString Span := ⟨text⟩

theorem merge_of_isSynthetic_left {left : Span} (nowhere : left.isSynthetic = true) (right : Span) :
    left.merge right = right := by
  simp [merge, nowhere]

theorem merge_of_isSynthetic_right (left : Span) {right : Span}
    (somewhere : left.isSynthetic = false) (nowhere : right.isSynthetic = true) :
    left.merge right = left := by
  simp [merge, somewhere, nowhere]

end Span

end LispScope
