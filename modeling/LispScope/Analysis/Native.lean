import LispScope.Analysis.State
import LispScope.Special.Interpolation

/-!
# Native code

`(native/raw "code")`, in which every interpolated text is read by the host and must hold exactly
one form. The whole text is split before any of it is read.
-/
namespace LispScope

open AnalysisM

variable {σ : Type}

/-- The form in an interpolated text, which belongs to a string at a span. -/
def readInterpolation (analyzer : Analyzer σ) (text : String) (span : Span) : AnalysisM σ Form := do
  match ← settle (← tryHost (analyzer.host.readFragment text span)) with
  | [form] => return form
  | forms => refuse (.rawForms forms.length) span

/-- The pieces of native code in a string at a span. -/
def analyzePieces (analyzer : Analyzer σ) (self : Recursion σ) (cx : Context) (span : Span) :
    List Piece → AnalysisM σ (List (Chunk Expr))
  | [] => return []
  | .code text :: pieces => do
    let chunks ← analyzePieces analyzer self cx span pieces
    return .code text :: chunks
  | .interpolation text :: pieces => do
    let form ← readInterpolation analyzer text span
    let value ← self cx.operand form
    let chunks ← analyzePieces analyzer self cx span pieces
    return .expr value :: chunks

/-- `(native/raw "code")`. -/
def analyzeNative (analyzer : Analyzer σ) (self : Recursion σ) (cx : Context) (args : List Form)
    (span : Span) : AnalysisM σ Expr := do
  match args with
  | [.atom (.string text) textSpan] =>
    let some pieces := Piece.split? text
      | refuse .rawUnterminated textSpan
    let chunks ← analyzePieces analyzer self cx textSpan pieces
    return cx.expr (.native chunks) span
  | [form] => refuse (.rawText form.typeName) form.span
  | _ => refuse .rawShape span

end LispScope
