import LispScope.Analysis.Leaf
import LispScope.Special.Clauses

/-!
# Control flow

`do`, `if`, `quote`, `var`, `throw`, `try` and `case*`. The branches of a conditional, of a `case*`,
and the bodies of `try` and `catch` stand where the whole form stands; `finally` is a statement.
-/
namespace LispScope

open AnalysisM

variable {σ : Type}

/-- `(do form*)`. -/
def analyzeDo (self : Recursion σ) (cx : Context) (args : List Form) (span : Span) :
    AnalysisM σ Expr := do
  if args.isEmpty then analyzeNil cx span
  else
    let exprs ← analyzeSequence self cx args
    return cx.expr (.sequence exprs) span

/-- `(if condition yes no?)`. -/
def analyzeIf (self : Recursion σ) (cx : Context) (args : List Form) (span : Span) :
    AnalysisM σ Expr := do
  let (condition, yes, no) ← match args with
    | [condition, yes] => pure (condition, yes, none)
    | [condition, yes, no] => pure (condition, yes, some no)
    | _ => refuse (.ifShape args.length) span
  let condition ← self cx.operand condition
  let yes ← self cx yes
  let no ← no.mapM (self cx)
  return cx.expr (.branch condition yes no) span

/-- `(quote form)`. -/
def analyzeQuote (analyzer : Analyzer σ) (cx : Context) (args : List Form) (span : Span) :
    AnalysisM σ Expr :=
  match args with
  | [form] => analyzeQuoted analyzer cx form span
  | _ => refuse .quoteShape span

/-- `(var symbol)`. -/
def analyzeVar (analyzer : Analyzer σ) (cx : Context) (args : List Form) (span : Span) :
    AnalysisM σ Expr := do
  match args with
  | [.symbol symbol symbolSpan] =>
    match ← findVar analyzer symbol with
    | some var =>
      let lifted ← liftVar span cx var.name
      return cx.expr (.varObject lifted) span
    | none =>
      let qualified ← askHost fun world => analyzer.host.qualify world symbol
      refuse (.unresolvedVar qualified) symbolSpan
  | [form] => refuse (.varTarget form.typeName) form.span
  | _ => refuse .varShape span

/-- `(throw form)`. -/
def analyzeThrow (self : Recursion σ) (cx : Context) (args : List Form) (span : Span) :
    AnalysisM σ Expr := do
  match args with
  | [form] =>
    let value ← self cx.operand form
    return cx.expr (.throwing value) span
  | _ => refuse .throwShape span

/-- `(catch Type name body*)` with the given items. -/
def analyzeCatch (self : Recursion σ) (cx : Context) (items : List Form) (clause : Form) :
    AnalysisM σ (Handler Expr) := do
  let parts ← settle (CatchParts.ofItems items clause.span)
  let frame ← openFrame cx .handler
  let binding ← bindLocal clause.span frame parts.name none true
  let body ← analyzeBody self (cx.inFrame frame) parts.body clause.span
  return { exceptionType := parts.exceptionType, binding, frame, body }

/-- `(finally body*)` with the given items, in a form at a span. -/
def analyzeFinally (self : Recursion σ) (cx : Context) (items : List Form) (span : Span) :
    AnalysisM σ Expr := do
  let frame ← openFrame cx .cleanup
  analyzeBody self (cx.statement.inFrame frame) items.tail span

/-- `(try body* (catch Type name body*)? (finally body*)?)`. -/
def analyzeTry (self : Recursion σ) (cx : Context) (args : List Form) (span : Span) :
    AnalysisM σ Expr := do
  let parts ← settle (TryParts.ofItems args)
  let frame ← openFrame cx .guarded
  let body ← analyzeBody self (cx.inFrame frame) parts.body span
  let handler ← parts.handler.mapM fun (items, clause) => analyzeCatch self cx items clause
  let cleanup ← parts.cleanup.mapM fun items => analyzeFinally self cx items span
  return cx.expr (.guarded body frame handler cleanup) span

/-- The branches of a `case*`. -/
def analyzeBranches (self : Recursion σ) (cx : Context) :
    List (Form × Form) → AnalysisM σ (List (Int64 × Expr))
  | [] => return []
  | (keyForm, form) :: entries => do
    let key ← settle (caseInteger .key keyForm)
    let branch ← self cx form
    let branches ← analyzeBranches self cx entries
    return (key, branch) :: branches

/-- `(case* value shift mask default {key branch ...})`. -/
def analyzeCase (self : Recursion σ) (cx : Context) (args : List Form) (span : Span) :
    AnalysisM σ Expr := do
  let parts ← settle (CaseParts.ofItems args span)
  let value ← self cx.operand parts.value
  let branches ← analyzeBranches self cx parts.entries
  let fallback ← self cx parts.fallback
  return cx.expr (.dispatch value parts.shift parts.mask branches fallback) span

end LispScope
