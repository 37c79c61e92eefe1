import LispScope.Analysis.State

/-!
# Constants, names and bodies

The analysis of what has no special form: constants, which are lifted unless they are nil or a
boolean; symbols, which refer to a local, to an enclosing function or to a var; and bodies, in which
every form but the last is a statement; and operands, which are analyzed from left to right.
-/
namespace LispScope

open AnalysisM

variable {σ : Type}

def analyzeConstant (cx : Context) (value : Datum) (span : Span) : AnalysisM σ Expr := do
  if value.needsLifting then
    let lifted ← liftConstant span cx value
    return cx.expr (.literal value (some lifted)) span
  else return cx.expr (.literal value none) span

def analyzeNil (cx : Context) (span : Span) : AnalysisM σ Expr :=
  analyzeConstant cx (.atom .nil) span

/-- A form at a place that stands for itself, its keywords interned. -/
def analyzeQuoted (analyzer : Analyzer σ) (cx : Context) (form : Form) (span : Span) :
    AnalysisM σ Expr := do
  let value ← runHost (form.constant analyzer.host.internKeyword)
  analyzeConstant cx value span

/-- The var that a symbol stands for outside the form. -/
def findVar (analyzer : Analyzer σ) (symbol : Symbol) : AnalysisM σ (Option Var) :=
  askHost fun world => analyzer.host.findVar world (analyzer.host.qualify world symbol)

def analyzeSymbol (analyzer : Analyzer σ) (cx : Context) (symbol : Symbol) (span : Span) :
    AnalysisM σ Expr := do
  match ← resolve span cx symbol with
  | some ⟨.binding id, crossed⟩ =>
    let binding ← useBinding span cx ⟨id, crossed⟩
    return cx.expr (.localRef symbol binding cx.boxed) span
  | some ⟨.self frame, crossed⟩ =>
    useSelf span cx ⟨frame, crossed⟩
    return cx.expr (.selfRef symbol frame) span
  | none =>
    match ← findVar analyzer symbol with
    | some var =>
      let lifted ← liftVar span cx var.name
      return cx.expr (.varValue lifted) span
    | none =>
      if symbol.isQualified then refuse (.unresolvedVar symbol) span
      else refuse (.unresolvedSymbol symbol) span

/-- Forms of which all but the last are statements; the last one stands at the given place. -/
def analyzeSequence (self : Recursion σ) (cx : Context) : List Form → AnalysisM σ (List Expr)
  | [] => return []
  | [last] => return [← self cx last]
  | form :: forms => do
    let expr ← self cx.statement form
    let exprs ← analyzeSequence self cx forms
    return expr :: exprs

/-- A body, which belongs to a form at a span. An empty body is nil. -/
def analyzeBody (self : Recursion σ) (cx : Context) (body : List Form) (span : Span) :
    AnalysisM σ Expr :=
  match body with
  | [] => analyzeNil cx span
  | [only] => self cx only
  | forms => do
    let exprs ← analyzeSequence self cx forms
    return cx.expr (.sequence exprs) span

/-- Forms at the same place, one after the other. -/
def analyzeOperands (self : Recursion σ) (cx : Context) : List Form → AnalysisM σ (List Expr)
  | [] => return []
  | form :: forms => do
    let expr ← self cx form
    let exprs ← analyzeOperands self cx forms
    return expr :: exprs

/-- Keys and values of a map that is not constant. -/
def analyzeEntries (self : Recursion σ) (cx : Context) :
    List (Form × Form) → AnalysisM σ (List (Expr × Expr))
  | [] => return []
  | (key, value) :: entries => do
    let key ← self cx.operand key
    let value ← self cx.operand value
    let entries ← analyzeEntries self cx entries
    return (key, value) :: entries

end LispScope
