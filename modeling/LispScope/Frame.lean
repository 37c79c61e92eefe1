import LispScope.Datum.Equality
import LispScope.Expr
import LispScope.Registry
import LispScope.Table

/-!
# Frames and bindings

Every lexical scope that the analysis enters becomes a *frame*, and every local name a *binding*.
Both are kept in the order in which they were made and are referred to by number; a frame knows its
parent. A frame of a function, and the root, also collect what the code in it captures from outside
and which vars and constants it uses. An operation that is handed a number of no frame or binding
gives `none`.
-/
namespace LispScope

/-- What the frame of an arity knows about its function. -/
structure FnContext where
  /-- The function's own name. -/
  name : Option String
  /-- The identifier of the function. -/
  uniqueName : String
  /-- Number of parameters, the rest parameter included. -/
  paramCount : Nat
  /-- Whether there is a rest parameter. -/
  isVariadic : Bool
  /-- Whether some `recur` jumps back to the arity. -/
  isTailRecursive : Bool
  /-- Whether the function calls itself by its name. -/
  isNamedRecursive : Bool
deriving DecidableEq, Inhabited, Repr

/-- What opened a frame. -/
inductive FrameKind
  | root
  | function
  | lets
  | loop
  | letfns
  | guarded
  | handler
  | cleanup
deriving DecidableEq, Inhabited, Repr

def FrameKind.text : FrameKind → String
  | root => "root"
  | function => "fn"
  | lets => "let"
  | loop => "loop"
  | letfns => "letfn"
  | guarded => "try"
  | handler => "catch"
  | cleanup => "finally"

/-- A lexical scope. What is known about a function or a loop is filled in after its frame has been
opened, at different times: that of a function at once, that of a loop when its names are bound. -/
structure Frame where
  /-- What opened the frame. -/
  kind : FrameKind
  /-- The frame around; only the root has none. -/
  parent : Option FrameId
  /-- The names bound in the frame; a later binding hides an earlier one of the same name. -/
  locals : Table Symbol BindingId := .empty
  /-- The copies of names from outside. -/
  captures : Registry Symbol BindingId := .empty
  /-- The vars used in the frame, by qualified name. -/
  vars : Registry Symbol LiftedVar := .empty
  /-- The constants used in the frame. -/
  constants : Registry Datum LiftedConstant := .empty
  /-- What the frame of an arity knows about its function. -/
  function? : Option FnContext := none
  /-- Number of names, in the frame of a loop. -/
  loopArity? : Option Nat := none
deriving Inhabited

namespace Frame

def isFunction (frame : Frame) : Bool := frame.kind = .function

def fillFunction (context : FnContext) (frame : Frame) : Frame :=
  { frame with function? := some context }

def fillLoop (arity : Nat) (frame : Frame) : Frame := { frame with loopArity? := some arity }

/-- Changes what a frame knows about its function, if it knows anything. -/
def updateFunction (change : FnContext → FnContext) (frame : Frame) : Frame :=
  { frame with function? := frame.function?.map change }

end Frame

/-- A local name, or a captured copy of one. -/
structure Binding where
  name : Symbol
  /-- The frame that holds the binding. -/
  frame : FrameId
  /-- The initial value, for the names of a `let*`. -/
  initial : Option Expr
  /-- The binding that this one is a copy of. -/
  capturedFrom : Option BindingId
  /-- Whether the value has to be kept boxed. -/
  needsBox : Bool
  /-- Whether some use needs the value boxed. -/
  hasBoxedUse : Bool
  /-- Whether some use takes the value unboxed. -/
  hasUnboxedUse : Bool
deriving Inhabited

namespace Binding

/-- A name without uses. -/
def fresh (name : Symbol) (frame : FrameId) (initial : Option Expr) (needsBox : Bool) : Binding :=
  ⟨name, frame, initial, none, needsBox, false, false⟩

/-- A captured copy, which is boxed from the beginning. -/
def copyOf (source : BindingId) (name : Symbol) (frame : FrameId) : Binding :=
  ⟨name, frame, none, some source, true, true, false⟩

/-- Whether the binding is a captured copy. -/
def isCapture (binding : Binding) : Bool := binding.capturedFrom.isSome

/-- The locals whose value becomes the value of the binding. A captured copy has none. -/
def aliases (binding : Binding) : List BindingId :=
  match binding.capturedFrom, binding.initial with
  | none, some initial => initial.resultLocals
  | _, _ => []

/-- Notes a use that needs the value boxed. -/
def useBoxed (binding : Binding) : Binding :=
  { binding with hasBoxedUse := true, needsBox := true }

/-- Notes a use that takes the value unboxed. -/
def useUnboxed (binding : Binding) : Binding := { binding with hasUnboxedUse := true }

end Binding

/-- The frames and bindings of one form. -/
structure FrameTree where
  /-- The frames by number; the first one is the root. -/
  frames : Array Frame
  /-- The bindings by number. -/
  bindings : Array Binding
deriving Inhabited

namespace FrameTree

/-- The number of the root frame. -/
def rootId : FrameId := 0

/-- Only the root. -/
def initial : FrameTree := ⟨#[{ kind := .root, parent := none }], #[]⟩

/-- The frame with a number. -/
def frame? (tree : FrameTree) (id : FrameId) : Option Frame := tree.frames[id]?

/-- The binding with a number. -/
def binding? (tree : FrameTree) (id : BindingId) : Option Binding := tree.bindings[id]?

def updateFrame (tree : FrameTree) (id : FrameId) (change : Frame → Frame) : Option FrameTree :=
  if id < tree.frames.size then some { tree with frames := tree.frames.modify id change } else none

/-- Opens a frame in another one. It knows nothing but its kind. -/
def openFrame (tree : FrameTree) (kind : FrameKind) (parent : FrameId) : FrameId × FrameTree :=
  (tree.frames.size, { tree with frames := tree.frames.push { kind, parent := some parent } })

def bind (tree : FrameTree) (frame : FrameId) (name : Symbol) (initial : Option Expr)
    (needsBox : Bool) : Option (BindingId × FrameTree) := do
  let id := tree.bindings.size
  let tree ← tree.updateFrame frame fun held => { held with locals := held.locals.insert name id }
  return (id, { tree with bindings := tree.bindings.push (.fresh name frame initial needsBox) })

/-- Whether a name with the given initial value can be kept unboxed: the value is a constant with a
machine representation, a fast call, or a local that needs no box itself. -/
def isUnboxable (tree : FrameTree) (initial : Expr) : Option Bool :=
  match initial.node with
  | .literal value _ => some value.hasUnboxedForm
  | .call _ _ fast => some fast
  | .localRef _ binding _ => (tree.binding? binding).map fun held => !held.needsBox
  | _ => some false

end FrameTree

end LispScope
