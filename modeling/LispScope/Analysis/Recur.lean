import LispScope.Analysis.Leaf

/-!
# Tail jumps

`(recur arg*)` jumps back to the nearest function or loop. It must stand in tail position, must not
leave a `try`, and takes as many arguments as its target has names.
-/
namespace LispScope

open AnalysisM

variable {σ : Type}

/-- What a `recur` jumps back to from a frame, and how many arguments that takes. -/
def recurTarget : Lineage → Except Fault (RecurTarget × Nat)
  | [] => throw .rootlessScopes
  | (id, frame) :: outer =>
    match frame.kind with
    | .function =>
      match frame.function? with
      | some context => return (.function id, context.paramCount)
      | none => throw .unsetFunction
    | .loop =>
      match frame.loopArity? with
      | some arity => return (.loop id, arity)
      | none => throw .unsetLoop
    | .guarded | .handler | .cleanup => throw .recurFromTry
    | .root => throw .recurOutside
    | .lets | .letfns => recurTarget outer

/-- `(recur arg*)`. -/
def analyzeRecur (self : Recursion σ) (cx : Context) (args : List Form) (span : Span) :
    AnalysisM σ Expr := do
  if cx.position ≠ .tail then
    refuse .recurNotTail span
  let lineage ← readTree span fun tree => tree.lineage cx.frame
  let (target, expected) ← match recurTarget lineage with
    | .ok found => pure found
    | .error fault => refuse fault span
  if args.length ≠ expected then
    refuse (.recurArgs expected args.length) span
  match target with
  | .loop _ =>
    let args ← analyzeOperands self (cx.operandAs false) args
    return cx.expr (.recur args target) span
  | .function frame =>
    let args ← analyzeOperands self cx.operand args
    updateFunction span frame fun context => { context with isTailRecursive := true }
    return cx.expr (.recur args target) span

end LispScope
