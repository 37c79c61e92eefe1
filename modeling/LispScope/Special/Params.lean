import LispScope.Diagnostic.Fault

/-!
# Parameters and arities

A parameter vector lists unqualified symbols, optionally followed by `&` and one more for the
remaining arguments. The arities of a function must not compete for the same number of arguments: at
most one is variadic, no two fixed ones take equally many, and none of these takes more than the
variadic one has fixed parameters.
-/
namespace LispScope

/-- The parameters of an arity. -/
structure Params where
  /-- The parameters that take one argument each. -/
  fixed : List Symbol
  /-- The parameter for the remaining arguments. -/
  rest : Option Symbol
deriving DecidableEq, Inhabited, Repr

namespace Params

/-- All parameters, the rest parameter last. -/
def names (params : Params) : List Symbol := params.fixed ++ params.rest.toList

/-- Whether there is a rest parameter. -/
def isVariadic (params : Params) : Bool := params.rest.isSome

/-- The name of a rest parameter, which is not `&` again. -/
def restName? (form : Form) : Option Symbol := form.localName?.filter fun name => name.name ≠ "&"

/-- Reads the parameters from the items of a vector. -/
def ofItems : List Form → Except Diagnostic Params
  | [] => return ⟨[], none⟩
  | param :: after =>
    if param.isNamed "&" then
      match after with
      | [] => throw (Fault.restMissing.diagnose param.span)
      | [form] =>
        match restName? form with
        | some name => return ⟨[], some name⟩
        | none => throw ((Fault.restName form.text).diagnose form.span)
      | _ :: extra :: _ => throw (Fault.restRepeated.diagnose extra.span)
    else
      match param.localName? with
      | some name => do
        let params ← ofItems after
        return { params with fixed := name :: params.fixed }
      | none => throw ((Fault.paramName param.text).diagnose param.span)

/-- Reads at most `limit` parameters from the items of a vector at a span. -/
def parse (limit : Nat) (items : List Form) (span : Span) : Except Diagnostic Params := do
  let params ← ofItems items
  let count := params.names.length
  if limit < count then throw ((Fault.tooManyParams limit count).diagnose span)
  return params

end Params

/-- How many arguments an arity takes. -/
structure Signature where
  /-- Number of parameters, the rest parameter included. -/
  paramCount : Nat
  /-- Whether there is a rest parameter. -/
  isVariadic : Bool
deriving DecidableEq, Inhabited, Repr

namespace Signature

/-- Number of parameters that take one argument each. -/
def fixedCount (signature : Signature) : Nat :=
  if signature.isVariadic then signature.paramCount - 1 else signature.paramCount

/-- Why an arity cannot stand beside an earlier one. -/
def clash? (earlier added : Signature) : Option Fault :=
  match earlier.isVariadic, added.isVariadic with
  | true, true => some .secondVariadic
  | false, false =>
    if earlier.paramCount = added.paramCount then some (.sameArity added.paramCount) else none
  | true, false => if earlier.fixedCount < added.fixedCount then some .fixedAboveVariadic else none
  | false, true => if added.fixedCount < earlier.fixedCount then some .fixedAboveVariadic else none

/-- Why an arity cannot stand beside the earlier ones. -/
def conflict? (earlier : List Signature) (added : Signature) : Option Fault :=
  earlier.findSome? fun signature => signature.clash? added

end Signature

/-- An arity before its analysis. -/
structure ArityForm where
  /-- The items of the parameter vector. -/
  params : List Form
  /-- The span of the parameter vector. -/
  span : Span
  body : List Form

namespace ArityForm

/-- An arity written as a list of a parameter vector and a body. -/
def ofList (form : Form) : Except Diagnostic ArityForm :=
  match form with
  | .list (.vector params span :: body) _ => return ⟨params, span, body⟩
  | _ => throw ((Fault.fnArity form.text).diagnose form.span)

/-- The arities of a function at a span: one parameter vector with its body, or a list for each. -/
def ofForms (forms : List Form) (span : Span) : Except Diagnostic (List ArityForm) :=
  match forms with
  | [] => throw (Fault.fnShape.diagnose span)
  | .vector params span :: body => return [⟨params, span, body⟩]
  | forms => forms.mapM ofList

end ArityForm

end LispScope
