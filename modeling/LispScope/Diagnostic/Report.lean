import LispScope.Diagnostic
import LispScope.Text.Lines

/-!
# Reports

A report shows a diagnostic against the text that it came from: the message, the line with a caret
under the column, every note, the macro calls from the innermost outwards, and then the causes in
the same way. What has no place in the text is shown without line and caret.
-/
namespace LispScope.Report

/-- Columns that a character takes in a displayed line. -/
def width (c : Char) : Nat := if c = '\t' then 4 else 1

/-- Displayed width of a line, as far as it stays below the limit. The character that reaches the
limit is counted in full. -/
def widthUpTo (limit : Nat) : Nat → List Char → Nat
  | reached, [] => reached
  | reached, c :: rest =>
    if limit ≤ reached then reached else widthUpTo limit (reached + width c) rest

/-- A caret under the given column of a line, no further right than the line reaches. -/
def caret (line : String) (col : Nat) : String :=
  let indent := min (widthUpTo (col - 1) 0 line.toList) (col - 1)
  String.ofList (List.replicate indent ' ') ++ "^"

/-- The line that a span begins in, numbered, with a caret under the first column of the span. -/
def context (source : String) (span : Span) : String :=
  match if span.isSynthetic then none else Text.line? source span.line with
  | none => ""
  | some line =>
    let number := toString span.line
    let padding := String.ofList (List.replicate number.length ' ')
    number ++ " | " ++ line ++ "\n" ++ padding ++ " | " ++ caret line span.col ++ "\n"

/-- The place in brackets, for what has one. -/
def suffixOf (span : Span) : String := if span.isSynthetic then "" else " (" ++ span.text ++ ")"

/-- A labelled message with its line. -/
def located (source label message : String) (span : Span) : String :=
  label ++ ": " ++ message ++ suffixOf span ++ "\n" ++ context source span

/-- A macro call that led to a diagnostic. -/
def expansionLine (form : Form) : String :=
  "  expanded from " ++ form.text ++ suffixOf form.span ++ "\n"

/-- One incident under its label, with its notes and macro calls. -/
def incident (source label : String) (it : Incident) : String :=
  located source label it.message it.span
    ++ String.join (it.notes.map fun note =>
      located source note.severity.text note.message note.span)
    ++ String.join (it.expansions.reverse.map expansionLine)

def render (source : String) (diagnostic : Diagnostic) : String :=
  incident source ("error[" ++ diagnostic.kind.id ++ "]") diagnostic.toIncident
    ++ String.join (diagnostic.causes.map fun cause =>
      incident source ("caused by " ++ cause.kind.id) cause)

end LispScope.Report
