import LispScope.Analysis.Leaf
import LispScope.Special.Params

/-!
# Functions

`(fn* name? [params] body*)` and `(fn* name? ([params] body*)+)`. Each arity has a frame of its own,
in which its parameters are bound and boxed; its body stands in tail position.
-/
namespace LispScope

open AnalysisM

variable {σ : Type}

def bindParams (span : Span) (frame : FrameId) : List Symbol → AnalysisM σ (List BindingId)
  | [] => return []
  | name :: names => do
    let binding ← bindLocal span frame name none true
    let bindings ← bindParams span frame names
    return binding :: bindings

def analyzeArity (analyzer : Analyzer σ) (self : Recursion σ) (cx : Context)
    (name : Option Symbol) (uniqueName : String) (form : ArityForm) : AnalysisM σ (Arity Expr) := do
  let params ← settle (Params.parse analyzer.config.maxParams form.params form.span)
  let frame ← openFrame cx .function
  fillFunction form.span frame
    { name := name.map Symbol.name
      uniqueName
      paramCount := params.names.length
      isVariadic := params.isVariadic
      isTailRecursive := false
      isNamedRecursive := false }
  let bindings ← bindParams form.span frame params.names
  let inner : Context := { cx with frame, position := .tail, boxed := true }
  let body ← analyzeBody self inner form.body form.span
  return { params := bindings, isVariadic := params.isVariadic, frame, body }

/-- How many arguments an arity takes. -/
def Arity.signature (arity : Arity Expr) : Signature := ⟨arity.params.length, arity.isVariadic⟩

/-- The arities of a function, each checked against the earlier ones once it is analyzed. -/
def analyzeArities (analyzer : Analyzer σ) (self : Recursion σ) (cx : Context)
    (name : Option Symbol) (uniqueName : String) (earlier : List Signature) :
    List ArityForm → AnalysisM σ (List (Arity Expr))
  | [] => return []
  | form :: forms => do
    let arity ← analyzeArity analyzer self cx name uniqueName form
    if let some fault := Signature.conflict? earlier arity.signature then
      refuse fault form.span
    let arities ←
      analyzeArities analyzer self cx name uniqueName (earlier ++ [arity.signature]) forms
    return arity :: arities

/-- The name of a function, if it has one, and the forms after it. -/
def functionName (args : List Form) : Except Diagnostic (Option Symbol × List Form) :=
  match args with
  | .symbol name span :: rest =>
    if name.isQualified then throw ((Fault.fnName name).diagnose span) else return (some name, rest)
  | rest => return (none, rest)

def analyzeFunction (analyzer : Analyzer σ) (self : Recursion σ) (cx : Context) (args : List Form)
    (span : Span) : AnalysisM σ Expr := do
  let (name, rest) ← settle (functionName args)
  let forms ← settle (ArityForm.ofForms rest span)
  let uniqueName ← freshName ((name.map Symbol.name).getD "fn")
  let arities ← analyzeArities analyzer self cx name uniqueName [] forms
  return cx.expr (.function name uniqueName arities) span

end LispScope
