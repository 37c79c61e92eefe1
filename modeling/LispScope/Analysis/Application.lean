import LispScope.Analysis.Leaf

/-!
# Applications

A list that is no special form. If its head names a local it is a call; if it names an enclosing
function it is a call of that function by itself; otherwise it is a macro call if the head stands
for a macro, and a call of whatever the head evaluates to if not. The expansion of a macro call is
analyzed in place of the call.
-/
namespace LispScope

open AnalysisM

variable {σ : Type}

/-- Whether an expression is an operator that takes its operands unboxed. -/
def isUnboxedOperator (config : Config) (head : Expr) : Bool :=
  match head.node with
  | .varValue var => config.isUnboxedOp var.name
  | _ => false

def analyzeCall (analyzer : Analyzer σ) (self : Recursion σ) (cx : Context) (head : Form)
    (args : List Form) (span : Span) : AnalysisM σ Expr := do
  let head ← self cx.operand head
  let fast := isUnboxedOperator analyzer.config head
  let args ← analyzeOperands self (cx.operandAs !fast) args
  return cx.expr (.call head args fast) span

/-- Notes on the frame of a function that it calls itself. -/
def noteSelfCall (span : Span) (target : FrameId) : AnalysisM σ Unit := do
  let frame ← readTree span fun tree => tree.frame? target
  if frame.function?.isNone then
    refuse .unsetSelf span
  updateFunction span target fun context => { context with isNamedRecursive := true }

/-- A call of an enclosing function by itself. -/
def analyzeSelfCall (self : Recursion σ) (cx : Context) (found : Found FrameId)
    (args : List Form) (span : Span) : AnalysisM σ Expr := do
  useSelf span cx found
  noteSelfCall span found.target
  let args ← analyzeOperands self cx.operand args
  return cx.expr (.selfCall found.target args found.crossed) span

/-- Expands a macro call once and analyzes what comes of it. -/
def analyzeExpansion (analyzer : Analyzer σ) (self : Recursion σ) (cx : Context) (call : Form) :
    AnalysisM σ Expr := do
  match ← tryHost (analyzer.host.expandOnce call) with
  | .ok expansion => self cx expansion
  | .error cause => throw (.refused (Fault.expansionOf call cause))

/-- A macro call, which stands on the stack for as long as it is expanded and its expansion analyzed, so
whatever is refused there carries the calls that led to it. -/
def analyzeMacroCall (analyzer : Analyzer σ) (self : Recursion σ) (cx : Context) (call : Form) :
    AnalysisM σ Expr := do
  pushExpansion call
  finishing popExpansion (noting (analyzeExpansion analyzer self cx call))

def analyzeApplication (analyzer : Analyzer σ) (self : Recursion σ) (cx : Context) (head : Form)
    (args : List Form) (span : Span) : AnalysisM σ Expr := do
  match head.symbol? with
  | none => analyzeCall analyzer self cx head args span
  | some symbol =>
    match ← resolve span cx symbol with
    | some ⟨.binding _, _⟩ => analyzeCall analyzer self cx head args span
    | some ⟨.self frame, crossed⟩ => analyzeSelfCall self cx ⟨frame, crossed⟩ args span
    | none =>
      match ← findVar analyzer symbol with
      | some ⟨_, true⟩ => analyzeMacroCall analyzer self cx (.list (head :: args) span)
      | _ => analyzeCall analyzer self cx head args span

end LispScope
