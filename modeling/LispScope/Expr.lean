import LispScope.Datum
import LispScope.Span

/-!
# Expressions

The result of the analysis: a tree in which every name is resolved to a binding, a var or an
enclosing function. `Node ε` is one level of the tree over subexpressions `ε`, and `Expr` closes it
up with a position and a span. Everything that walks the tree goes through `Node.children`, the
subexpressions in the order in which they are evaluated; a child is smaller than its parent
(`Expr.sizeOf_lt_of_mem_children`), which gives the induction principle `Expr.induction`.
-/
namespace LispScope

/-- The number of a frame, that is, of a lexical scope. -/
abbrev FrameId := Nat

/-- The number of a binding, that is, of a local name or of a captured copy of one. -/
abbrev BindingId := Nat

/-- Where the value of an expression goes. -/
inductive Position
  /-- The value is dropped. -/
  | statement
  /-- The value is used by the expression around. -/
  | value
  /-- The value is returned from the function or loop around. -/
  | tail
deriving DecidableEq, Inhabited, Repr

def Position.text : Position → String
  | statement => "statement"
  | value => "value"
  | tail => "tail"

/-- A var that is looked up once per function. -/
structure LiftedVar where
  name : Symbol
  /-- The identifier of the lookup. -/
  nativeName : String
deriving DecidableEq, Inhabited, Repr

/-- The written form `#'name (identifier)`. -/
def LiftedVar.text (var : LiftedVar) : String :=
  "#'" ++ var.name.text ++ " (" ++ var.nativeName ++ ")"

/-- A constant that is built once per function. -/
structure LiftedConstant where
  /-- The value, as it was first met. -/
  value : Datum
  /-- The identifier of the value. -/
  nativeName : String
deriving Inhabited

/-- What a `recur` jumps back to. -/
inductive RecurTarget
  | function (frame : FrameId)
  | loop (frame : FrameId)
deriving DecidableEq, Inhabited, Repr

/-- One arity of a function, with a body in `ε`. -/
structure Arity (ε : Type) where
  /-- The parameters, the rest parameter last. -/
  params : List BindingId
  /-- Whether the last parameter takes the remaining arguments. -/
  isVariadic : Bool
  frame : FrameId
  body : ε

/-- Number of parameters that take one argument each. -/
def Arity.fixedCount (arity : Arity ε) : Nat :=
  if arity.isVariadic then arity.params.length - 1 else arity.params.length

/-- What is done with an exception, with a body in `ε`. -/
structure Handler (ε : Type) where
  /-- The type of exceptions that are handled. -/
  exceptionType : Symbol
  /-- The name of the exception in the body. -/
  binding : BindingId
  frame : FrameId
  body : ε

/-- A piece of native code: text, or an expression whose value is put in its place. -/
inductive Chunk (ε : Type)
  | code (text : String)
  | expr (value : ε)

/-- The expression in a piece of native code. -/
def Chunk.expr? : Chunk ε → Option ε
  | code _ => none
  | expr value => some value

/-- One level of an expression, with subexpressions in `ε`. -/
inductive Node (ε : Type)
  /-- Defines a var. -/
  | define (var : LiftedVar) (value : Option ε)
  /-- The value of a var. -/
  | varValue (var : LiftedVar)
  /-- A var itself. -/
  | varObject (var : LiftedVar)
  /-- A constant; nil and booleans are not lifted. -/
  | literal (value : Datum) (lifted : Option LiftedConstant)
  | vector (items : List ε)
  | set (items : List ε)
  | map (entries : List (ε × ε))
  /-- A local name. A captured one refers to the copy of the innermost function. -/
  | localRef (name : Symbol) (binding : BindingId) (boxed : Bool)
  | function (name : Option Symbol) (uniqueName : String) (arities : List (Arity ε))
  /-- A call. It is fast if its head is an operator that takes its operands unboxed. -/
  | call (head : ε) (args : List ε) (fast : Bool)
  | recur (args : List ε) (target : RecurTarget)
  /-- The enclosing function of the given frame, by its own name. -/
  | selfRef (name : Symbol) (frame : FrameId)
  /-- A call of the enclosing function of the given frame, across the frames of other functions. -/
  | selfCall (frame : FrameId) (args : List ε) (crossed : List FrameId)
  /-- Names with initial values. In a loop they can be set anew. -/
  | lets (isLoop : Bool) (pairs : List (BindingId × ε)) (body : ε) (frame : FrameId)
  /-- Functions that can refer to one another. -/
  | letfns (pairs : List (BindingId × ε)) (body : ε) (frame : FrameId)
  | sequence (items : List ε)
  | branch (condition yes : ε) (no : Option ε)
  | throwing (value : ε)
  | guarded (body : ε) (frame : FrameId) (handler : Option (Handler ε)) (cleanup : Option ε)
  /-- A choice by some bits of an integer. -/
  | dispatch (value : ε) (shift mask : Int64) (branches : List (Int64 × ε)) (fallback : ε)
  | native (chunks : List (Chunk ε))

namespace Node

def label : Node ε → String
  | define .. => "def"
  | varValue _ => "var-deref"
  | varObject _ => "var-ref"
  | literal .. => "primitive-literal"
  | vector _ => "vector"
  | set _ => "set"
  | map _ => "map"
  | localRef .. => "local-reference"
  | function .. => "function"
  | call .. => "call"
  | recur .. => "recur"
  | selfRef .. => "recursion-reference"
  | selfCall .. => "named-recursion"
  | lets isLoop .. => if isLoop then "loop" else "let"
  | letfns .. => "letfn"
  | sequence _ => "do"
  | branch .. => "if"
  | throwing _ => "throw"
  | guarded .. => "try"
  | dispatch .. => "case"
  | native _ => "native-raw"

/-- The subexpressions, in the order in which they are evaluated. -/
def children : Node ε → List ε
  | define _ value => value.toList
  | varValue _ | varObject _ | literal .. | localRef .. | selfRef .. => []
  | vector items | set items | sequence items => items
  | map entries => entries.flatMap fun entry => [entry.1, entry.2]
  | function _ _ arities => arities.map Arity.body
  | call head args _ => head :: args
  | recur args _ | selfCall _ args _ => args
  | lets _ pairs body _ | letfns pairs body _ => pairs.map Prod.snd ++ [body]
  | branch condition yes no => condition :: yes :: no.toList
  | throwing value => [value]
  | guarded body _ handler cleanup => body :: (handler.map Handler.body).toList ++ cleanup.toList
  | dispatch value _ _ branches fallback => value :: branches.map Prod.snd ++ [fallback]
  | native chunks => chunks.filterMap Chunk.expr?

/-- The subexpressions whose value becomes the value of the node as it is. -/
def results : Node ε → List ε
  | sequence items => items.getLast?.toList
  | branch _ yes no => yes :: no.toList
  | lets _ _ body _ | letfns _ body _ => [body]
  | guarded body _ handler _ => body :: (handler.map Handler.body).toList
  | dispatch _ _ _ branches fallback => branches.map Prod.snd ++ [fallback]
  | _ => []

/-- What a node evaluates to stems from one of its children. -/
theorem mem_children_of_mem_results {node : Node ε} {child : ε} (member : child ∈ node.results) :
    child ∈ node.children := by
  cases node with
  | sequence items =>
    simp only [results, Option.mem_toList] at member
    exact List.mem_of_getLast? member
  | branch condition yes no => exact List.mem_cons_of_mem _ member
  | lets isLoop pairs body frame => exact List.mem_append_right _ member
  | letfns pairs body frame => exact List.mem_append_right _ member
  | guarded body frame handler cleanup => exact List.mem_append_left _ member
  | dispatch value shift mask branches fallback => exact List.mem_cons_of_mem _ member
  | _ => simp [results] at member

/-- A child is smaller than its node. -/
theorem sizeOf_lt_of_mem_children [SizeOf ε] {node : Node ε} {child : ε}
    (member : child ∈ node.children) : sizeOf child < sizeOf node := by
  have pairBound (pairs : List (BindingId × ε)) (inside : child ∈ pairs.map Prod.snd) :
      sizeOf child < sizeOf pairs := by
    obtain ⟨⟨_, value⟩, held, rfl⟩ := List.mem_map.mp inside
    have := List.sizeOf_lt_of_mem held
    simp only [Prod.mk.sizeOf_spec] at this ⊢
    omega
  cases node with
  | varValue | varObject | literal | localRef | selfRef => simp [children] at member
  | vector items | set items | sequence items | recur items | selfCall _ items =>
    have bound : sizeOf child < sizeOf items := List.sizeOf_lt_of_mem member
    simp only [vector.sizeOf_spec, set.sizeOf_spec, sequence.sizeOf_spec, recur.sizeOf_spec,
      selfCall.sizeOf_spec]
    omega
  | define var value =>
    cases value with
    | none => simp [children] at member
    | some value =>
      simp only [children, Option.toList_some, List.mem_singleton] at member
      subst member
      simp only [define.sizeOf_spec, Option.some.sizeOf_spec]
      omega
  | map entries =>
    simp only [children, List.mem_flatMap] at member
    obtain ⟨⟨key, value⟩, held, inside⟩ := member
    have bound := List.sizeOf_lt_of_mem held
    simp only [Prod.mk.sizeOf_spec, List.mem_cons, List.not_mem_nil, or_false,
      map.sizeOf_spec] at bound inside ⊢
    rcases inside with rfl | rfl <;> omega
  | function name uniqueName arities =>
    obtain ⟨arity, held, rfl⟩ := List.mem_map.mp member
    have bound := List.sizeOf_lt_of_mem held
    cases arity
    simp only [Arity.mk.sizeOf_spec, function.sizeOf_spec] at bound ⊢
    omega
  | call head args fast =>
    simp only [children, List.mem_cons, call.sizeOf_spec] at member ⊢
    rcases member with rfl | inside
    · omega
    · have bound := List.sizeOf_lt_of_mem inside
      omega
  | lets isLoop pairs body frame =>
    simp only [children, List.mem_append, List.mem_singleton, lets.sizeOf_spec] at member ⊢
    rcases member with inside | rfl
    · have bound := pairBound pairs inside
      omega
    · omega
  | letfns pairs body frame =>
    simp only [children, List.mem_append, List.mem_singleton, letfns.sizeOf_spec] at member ⊢
    rcases member with inside | rfl
    · have bound := pairBound pairs inside
      omega
    · omega
  | branch condition yes no =>
    cases no <;>
      simp only [children, Option.toList_some, Option.toList_none, List.mem_cons, List.not_mem_nil,
        or_false, branch.sizeOf_spec, Option.some.sizeOf_spec] at member ⊢
    · rcases member with rfl | rfl <;> omega
    · rcases member with rfl | rfl | rfl <;> omega
  | throwing value =>
    simp only [children, List.mem_singleton, throwing.sizeOf_spec] at member ⊢
    subst member
    omega
  | guarded body frame handler cleanup =>
    simp only [children, List.cons_append, List.mem_cons, List.mem_append, Option.mem_toList,
      Option.map_eq_some_iff, guarded.sizeOf_spec] at member ⊢
    rcases member with rfl | ⟨held, rfl, rfl⟩ | rfl
    · omega
    · cases held
      simp only [Option.some.sizeOf_spec, Handler.mk.sizeOf_spec]
      omega
    · simp only [Option.some.sizeOf_spec]
      omega
  | dispatch value shift mask branches fallback =>
    simp only [children, List.cons_append, List.mem_cons, List.mem_append, List.not_mem_nil,
      or_false, dispatch.sizeOf_spec] at member ⊢
    rcases member with rfl | inside | rfl
    · omega
    · obtain ⟨⟨_, branch⟩, held, rfl⟩ := List.mem_map.mp inside
      have bound := List.sizeOf_lt_of_mem held
      simp only [Prod.mk.sizeOf_spec] at bound ⊢
      omega
    · omega
  | native chunks =>
    simp only [children, List.mem_filterMap] at member
    obtain ⟨chunk, held, inside⟩ := member
    have bound := List.sizeOf_lt_of_mem held
    cases chunk with
    | code text => simp [Chunk.expr?] at inside
    | expr value =>
      simp only [Chunk.expr?, Option.some.injEq] at inside
      subst inside
      simp only [Chunk.expr.sizeOf_spec, native.sizeOf_spec] at bound ⊢
      omega

end Node

/-- An expression: a node whose subexpressions are expressions, its position and its span. -/
structure Expr where
  /-- What the expression does. -/
  node : Node Expr
  /-- Where its value goes. -/
  position : Position
  /-- Where it stands in the source. -/
  span : Span

namespace Expr

/-- The subexpressions, in the order in which they are evaluated. -/
def children (expr : Expr) : List Expr := expr.node.children

theorem sizeOf_lt_of_mem_children {expr child : Expr} (member : child ∈ expr.children) :
    sizeOf child < sizeOf expr := by
  have bound := Node.sizeOf_lt_of_mem_children member
  cases expr
  simp only [mk.sizeOf_spec] at bound ⊢
  omega

/-- What holds of an expression whenever it holds of its children holds of every expression. -/
theorem induction {motive : Expr → Prop}
    (step : ∀ expr, (∀ child ∈ expr.children, motive child) → motive expr) (expr : Expr) :
    motive expr :=
  step expr fun child _ => induction step child
termination_by sizeOf expr
decreasing_by exact sizeOf_lt_of_mem_children ‹_›

/-- The expression and all its descendants, parents first. -/
def walk (expr : Expr) : List Expr :=
  expr :: expr.children.attach.flatMap fun ⟨child, _⟩ => child.walk
termination_by sizeOf expr
decreasing_by exact sizeOf_lt_of_mem_children ‹_›

theorem walk_eq (expr : Expr) : expr.walk = expr :: expr.children.flatMap walk := by
  rw [walk, List.flatMap_subtype (f := fun child => child.1.walk) (g := walk) (fun _ _ => rfl),
    List.unattach_attach]

/-- The locals whose value the expression may evaluate to as it is: a local name itself, or one that
is reached through the results of other nodes. -/
def resultLocals (expr : Expr) : List BindingId :=
  match expr.node with
  | .localRef _ binding _ => [binding]
  | _ => expr.node.results.attach.flatMap fun ⟨child, _⟩ => child.resultLocals
termination_by sizeOf expr
decreasing_by exact sizeOf_lt_of_mem_children (Node.mem_children_of_mem_results ‹_›)

end Expr

end LispScope
