import LispScope.Diagnostic.Fault

/-!
# Parts of special forms

How the items of `try`, of its `catch` clause and of `case*` fall into parts. A clause of `try` is a
list that begins with the symbol `catch` or `finally`; the body comes first, then at most one
`catch`, then at most one `finally`.
-/
namespace LispScope

/-- The two kinds of clause. -/
inductive ClauseKind
  | handler
  | cleanup
deriving DecidableEq, Inhabited, Repr

/-- The parts of a `try`. -/
structure TryParts where
  body : List Form := []
  /-- The items of the `catch` clause, and the clause itself. -/
  handler : Option (List Form × Form) := none
  /-- The items of the `finally` clause. -/
  cleanup : Option (List Form) := none

namespace TryParts

/-- The kind and the items of a clause; `none` for any other form. -/
def clause? (form : Form) : Option (ClauseKind × List Form) :=
  match form with
  | .list (head :: items) _ =>
    if head.isNamed "finally" then some (.cleanup, head :: items)
    else if head.isNamed "catch" then some (.handler, head :: items)
    else none
  | _ => none

/-- Adds one item behind the earlier ones. -/
def add (parts : TryParts) (item : Form) : Except Diagnostic TryParts :=
  match clause? item with
  | none =>
    if parts.handler.isSome || parts.cleanup.isSome then
      throw (Fault.bodyAfterClause.diagnose item.span)
    else return { parts with body := parts.body ++ [item] }
  | some (kind, items) =>
    if parts.cleanup.isSome then throw (Fault.finallyNotLast.diagnose item.span)
    else match kind with
      | .cleanup => return { parts with cleanup := some items }
      | .handler =>
        if parts.handler.isSome then throw (Fault.secondCatch.diagnose item.span)
        else return { parts with handler := some (items, item) }

/-- The parts of the items after `try`. -/
def ofItems (items : List Form) : Except Diagnostic TryParts := items.foldlM add {}

end TryParts

/-- The parts of a `catch` clause. -/
structure CatchParts where
  /-- The type of exceptions that are handled. -/
  exceptionType : Symbol
  name : Symbol
  body : List Form

/-- The parts of a clause at a span with the given items, of which the first is `catch`. -/
def CatchParts.ofItems (items : List Form) (span : Span) : Except Diagnostic CatchParts :=
  match items with
  | _ :: type :: name :: body =>
    match type.symbol?, name.localName? with
    | some exceptionType, some bound => return ⟨exceptionType, bound, body⟩
    | _, _ => throw ((Fault.catchParts type.text name.text).diagnose span)
  | _ => throw (Fault.catchShape.diagnose span)

/-- An integer that is part of a `case*`. -/
def caseInteger (part : CasePart) (form : Form) : Except Diagnostic Int64 :=
  match form.int? with
  | some value => return value
  | none => throw ((Fault.caseInteger part form.typeName).diagnose form.span)

/-- The parts of a `case*`. -/
structure CaseParts where
  /-- The form whose value is looked at. -/
  value : Form
  /-- By how many bits the value is shifted. -/
  shift : Int64
  /-- Which bits count. -/
  mask : Int64
  /-- The form for all other values. -/
  fallback : Form
  /-- The keys and their forms. -/
  entries : List (Form × Form)

/-- The parts of the items after `case*`, in a form at a span. -/
def CaseParts.ofItems (items : List Form) (span : Span) : Except Diagnostic CaseParts :=
  match items with
  | [value, shift, mask, fallback, branches] => do
    let shift ← caseInteger .shift shift
    let mask ← caseInteger .mask mask
    match branches.map? with
    | some entries => return ⟨value, shift, mask, fallback, entries⟩
    | none => throw ((Fault.caseBranches branches.typeName).diagnose branches.span)
  | _ => throw (Fault.caseShape.diagnose span)

end LispScope
