import LispScope.Expr
import LispScope.Form
import LispScope.Frame

/-!
# Contexts

What the analysis of a form knows about the place where the form stands: the frame, the position,
and whether the value is needed boxed. Operands of fast calls, initial values and the arguments of a
`recur` to a loop are the unboxed places.
-/
namespace LispScope

/-- The place of a form in the analysis. -/
structure Context where
  /-- The frame around the form. -/
  frame : FrameId
  position : Position
  boxed : Bool

namespace Context

/-- The place of a form that stands on its own. -/
def topLevel : Context := ⟨FrameTree.rootId, .value, true⟩

/-- A boxed operand in the same frame. -/
def operand (cx : Context) : Context := { cx with position := .value, boxed := true }

/-- An operand in the same frame, boxed or not. -/
def operandAs (cx : Context) (boxed : Bool) : Context := { cx.operand with boxed }

/-- A form in the same frame whose value is dropped. -/
def statement (cx : Context) : Context := { cx with position := .statement, boxed := true }

def inFrame (cx : Context) (frame : FrameId) : Context := { cx with frame }

def inPosition (cx : Context) (position : Position) : Context := { cx with position }

/-- The expression that stands at the place. -/
def expr (cx : Context) (node : Node Expr) (span : Span) : Expr := ⟨node, cx.position, span⟩

end Context

end LispScope
