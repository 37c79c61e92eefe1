import LispScope.Analysis.Leaf

/-!
# Local names

`let*`, `loop*` and `letfn*`. The names of a `let*` or `loop*` are visible in the initial values
after their own and in the body; those of a `letfn*` in all its functions and in the body.
-/
namespace LispScope

open AnalysisM

variable {σ : Type}

/-- The pairs in the binding vector of a form at a span. -/
def bindingPairs (binder : Binder) (vector : Option Form) (span : Span) :
    Except Diagnostic (List (Form × Form)) :=
  match vector with
  | some (.vector items vectorSpan) =>
    match Form.pairs? items with
    | some pairs => return pairs
    | none => throw ((Fault.oddBindings binder).diagnose vectorSpan)
  | _ => throw ((Fault.bindingVector binder).diagnose span)

/-- The name in a binding pair. -/
def bindingName (binder : Binder) (form : Form) : Except Diagnostic Symbol :=
  match form.localName? with
  | some name => return name
  | none => throw ((Fault.bindingName binder form.text).diagnose form.span)

/-- Binds names to initial values one after the other. A name of a loop has no lasting value. -/
def analyzePairs (self : Recursion σ) (inner : Context) (isLoop : Bool) :
    List (Form × Form) → AnalysisM σ (List (BindingId × Expr))
  | [] => return []
  | (nameForm, form) :: pairs => do
    let name ← settle (bindingName (if isLoop then .loop else .lets) nameForm)
    let initial ← self (inner.operandAs false) form
    let unboxable ← readTree form.span fun tree => tree.isUnboxable initial
    let binding ←
      bindLocal form.span inner.frame name (if isLoop then none else some initial) !unboxable
    let pairs ← analyzePairs self inner isLoop pairs
    return (binding, initial) :: pairs

/-- `(let* [name value ...] body*)`, or `loop*` with the same parts. -/
def analyzeLet (self : Recursion σ) (isLoop : Bool) (cx : Context) (args : List Form)
    (span : Span) : AnalysisM σ Expr := do
  let pairs ← settle (bindingPairs (if isLoop then .loop else .lets) args.head? span)
  let frame ← openFrame cx (if isLoop then .loop else .lets)
  let inner := cx.inFrame frame
  let pairs ← analyzePairs self inner isLoop pairs
  if isLoop then
    fillLoop span frame pairs.length
  let bodyPosition := if isLoop then .tail else cx.position
  let body ← analyzeBody self (inner.inPosition bodyPosition) args.tail span
  return cx.expr (.lets isLoop pairs body frame) span

/-- Binds the names of a `letfn*`, each of which must stand before a function. -/
def bindFunctions (frame : FrameId) : List (Form × Form) → AnalysisM σ (List (BindingId × Form))
  | [] => return []
  | (nameForm, form) :: pairs => do
    let name ← settle (bindingName .letfn nameForm)
    if form.head? ≠ some (.simple "fn*") then
      refuse (.letfnValue name) form.span
    let binding ← bindLocal form.span frame name none true
    let pairs ← bindFunctions frame pairs
    return (binding, form) :: pairs

/-- The functions of a `letfn*`, whose names are bound already. -/
def analyzeFunctions (self : Recursion σ) (cx : Context) :
    List (BindingId × Form) → AnalysisM σ (List (BindingId × Expr))
  | [] => return []
  | (binding, form) :: pairs => do
    let expr ← self cx form
    let pairs ← analyzeFunctions self cx pairs
    return (binding, expr) :: pairs

/-- `(letfn* [name (fn* ...) ...] body*)`. -/
def analyzeLetfn (self : Recursion σ) (cx : Context) (args : List Form) (span : Span) :
    AnalysisM σ Expr := do
  let pairs ← settle (bindingPairs .letfn args.head? span)
  let frame ← openFrame cx .letfns
  let inner := cx.inFrame frame
  let pairs ← bindFunctions frame pairs
  let pairs ← analyzeFunctions self inner.operand pairs
  let body ← analyzeBody self inner args.tail span
  return cx.expr (.letfns pairs body frame) span

end LispScope
