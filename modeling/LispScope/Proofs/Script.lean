import LispScope.Proofs.Arity

/-!
# Scripts

What the analysis does to frames, bindings and names is determined, form by form, by the expression
that comes out of it. The *script* of a node lists the steps in their order: a subexpression is
visited, a name is bound in the current frame, the names of a loop are counted, or a block is carried
out inside a new frame.
`Enacts` says that a script leads from one store to another. Between the steps of its script a
visited node has an effect of its own, at its beginning (`Begins`) or at its end (`Ends`).

Nothing here mentions forms, macros or the host: a statement about all results of the analysis is
an induction over `Enacts`.
-/
namespace LispScope

/-! ### Places -/

/-- Where an expression stands inside its frame. -/
structure Place where
  /-- Where the value goes. -/
  position : Position
  /-- Whether the value is needed boxed. -/
  boxed : Bool

namespace Place

/-- An operand, boxed or not. -/
def operandAs (boxed : Bool) : Place := ⟨.value, boxed⟩

/-- A boxed operand. -/
def operand : Place := operandAs true

/-- An expression whose value is dropped. -/
def statement : Place := ⟨.statement, true⟩

/-- The body of a function. -/
def functionBody : Place := ⟨.tail, true⟩

end Place

/-- The place of a form in the analysis, apart from its frame. -/
def Context.place (cx : Context) : Place := ⟨cx.position, cx.boxed⟩

/-! ### Steps -/

/-- How a name is introduced. -/
inductive Introduction
  /-- Without a value: a parameter, an exception, a function of a `letfn*`. -/
  | bare
  /-- With an initial value, in a `loop*` or in a `let*`. -/
  | initial (isLoop : Bool) (value : Expr)

/-- What a block opens its frame as. The frame of an arity knows its function before anything else
happens in it. -/
inductive Opening
  | function (context : FnContext)
  | lets
  | loop
  | letfns
  | guarded
  | handler
  | cleanup

namespace Opening

def kind : Opening → FrameKind
  | function _ => .function
  | lets => .lets
  | loop => .loop
  | letfns => .letfns
  | guarded => .guarded
  | handler => .handler
  | cleanup => .cleanup

def function? : Opening → Option FnContext
  | function context => some context
  | _ => none

theorem function?_of_plain {opening : Opening} (plain : ∀ context, opening ≠ .function context) :
    opening.function? = none ∧ opening.kind ≠ .function := by
  cases opening with
  | function context => exact absurd rfl (plain context)
  | _ => exact ⟨rfl, nofun⟩

/-- The frame in which the steps of the block begin. -/
@[simp] def frame (opening : Opening) (parent : FrameId) : Frame :=
  { kind := opening.kind, parent := some parent, function? := opening.function? }

end Opening

/-- A step of a script. -/
inductive Step
  | visit (place : Place) (expr : Expr)
  | bind (binding : BindingId) (how : Introduction)
  /-- The number of names is filled in on the current frame, that of a loop. -/
  | count (frame : FrameId) (arity : Nat)
  /-- Steps inside a new frame. The number of the frame of a `finally` is not part of the tree. -/
  | block (opening : Opening) (frame : Option FrameId) (script : List Step)

/-- What the frame of an arity knows about its function when it is opened. -/
def Arity.context (name : Option Symbol) (uniqueName : String) (arity : Arity Expr) : FnContext :=
  { name := name.map Symbol.name
    uniqueName
    paramCount := arity.params.length
    isVariadic := arity.isVariadic
    isTailRecursive := false
    isNamedRecursive := false }

/-- The steps of an arity. -/
def Arity.block (name : Option Symbol) (uniqueName : String) (arity : Arity Expr) : Step :=
  .block (.function (arity.context name uniqueName)) (some arity.frame)
    (arity.params.map (.bind · .bare) ++ [.visit .functionBody arity.body])

/-- The steps of a handler. -/
def Handler.block (place : Place) (handler : Handler Expr) : Step :=
  .block .handler (some handler.frame) [.bind handler.binding .bare, .visit place handler.body]

/-- The steps of a sequence: all but the last expression are statements. -/
def sequenceScript (place : Place) : List Expr → List Step
  | [] => []
  | [last] => [.visit place last]
  | expr :: exprs => .visit .statement expr :: sequenceScript place exprs

/-- The steps that bind names to initial values one after the other. -/
def pairScript (isLoop : Bool) (pairs : List (BindingId × Expr)) : List Step :=
  pairs.flatMap fun pair =>
    [.visit (.operandAs false) pair.2, .bind pair.1 (.initial isLoop pair.2)]

/-- The step that counts the names of a loop, once they are bound. -/
def countScript (isLoop : Bool) (frame : FrameId) (arity : Nat) : List Step :=
  if isLoop then [.count frame arity] else []

/-- The steps of a node at a place. What is not listed has boxed operands only. -/
def Node.script (place : Place) : Node Expr → List Step
  | function name uniqueName arities => arities.map (Arity.block name uniqueName)
  | call head args fast => .visit .operand head :: args.map (.visit (.operandAs !fast))
  | recur args (.function _) => args.map (.visit .operand)
  | recur args (.loop _) => args.map (.visit (.operandAs false))
  | lets isLoop pairs body frame =>
    [.block (if isLoop then .loop else .lets) (some frame)
      (pairScript isLoop pairs ++ countScript isLoop frame pairs.length ++
        [.visit ⟨if isLoop then .tail else place.position, place.boxed⟩ body])]
  | letfns pairs body frame =>
    [.block .letfns (some frame)
      (pairs.map (fun pair => .bind pair.1 .bare) ++
        pairs.map (fun pair => .visit .operand pair.2) ++ [.visit place body])]
  | sequence items => sequenceScript place items
  | branch condition yes no =>
    .visit .operand condition :: .visit place yes :: no.toList.map (.visit place)
  | guarded body frame handler cleanup =>
    .block .guarded (some frame) [.visit place body] ::
      handler.toList.map (Handler.block place) ++
      cleanup.toList.map (fun body => .block .cleanup none [.visit .statement body])
  | dispatch value _ _ branches fallback =>
    .visit .operand value :: branches.map (fun entry => .visit place entry.2) ++
      [.visit place fallback]
  | node => node.children.map (.visit .operand)

/-! ### What a node does itself -/

/-- What an analysis has made so far, apart from the state of the host. -/
structure Store where
  /-- The frames and bindings of the form. -/
  tree : FrameTree
  /-- The supply of identifiers. -/
  names : NameSupply

/-- The part of the state that scopes depend on. -/
def State.store (state : State σ) : Store := ⟨state.tree, state.names⟩

/-- What a name refers to at a frame, with the frames of functions that are left on the way. -/
def FrameTree.Refers (tree : FrameTree) (frame : FrameId) (name : Symbol)
    (found : Found Referent) : Prop :=
  ∃ lineage, tree.lineage frame = some lineage ∧ lineage.resolve name = some found

/-- Notes a `recur` to the arity. -/
def FnContext.markTail (context : FnContext) : FnContext :=
  { context with isTailRecursive := true }

/-- Notes a call of the function by itself. -/
def FnContext.markNamed (context : FnContext) : FnContext :=
  { context with isNamedRecursive := true }

namespace Node

/-- The var that a node looks up or defines. -/
def var? : Node ε → Option LiftedVar
  | define var _ | varValue var | varObject var => some var
  | _ => none

/-- The frame of the arity that a node jumps back to. -/
def jumped? : Node ε → Option FrameId
  | recur _ (.function frame) => some frame
  | _ => none

/-- The frame of the enclosing function that a node refers to. -/
def recursesTo? : Node ε → Option FrameId
  | selfRef _ frame | selfCall frame _ _ => some frame
  | _ => none

/-- The frame of the enclosing function that a node calls. -/
def called? : Node ε → Option FrameId
  | selfCall frame _ _ => some frame
  | _ => none

/-- The binding that a node refers to, with its name and whether it is needed boxed. -/
def localRef? : Node ε → Option (Symbol × BindingId × Bool)
  | localRef name binding boxed => some (name, binding, boxed)
  | _ => none

/-- Whether a node does nothing but what its script says. -/
def isIdle : Node ε → Bool
  | vector _ | set _ | map _ | call .. | lets .. | letfns .. | sequence _ | branch .. | throwing _
  | guarded .. | dispatch .. | native _ => true
  | _ => false

end Node

/-- What is known of a frame when it is opened: its number is part of the tree, except for a
`finally`, and nothing has jumped back to a function or called it. -/
def Opening.Records (frame : FrameId) (known : Option FrameId) : Opening → Prop
  | function context =>
    known = some frame ∧ context.isTailRecursive = false ∧ context.isNamedRecursive = false
  | cleanup => known = none
  | _ => known = some frame

/-- What a node does in a frame before its script. -/
inductive Begins (frame : FrameId) : Node Expr → Store → Store → Prop
  | var {store : Store} (looked : node.var? = some var)
      (lifted : store.tree.liftVar store.names frame name = some (var, tree, names)) :
      Begins frame node store ⟨tree, names⟩
  | literal {store : Store} (plain : value.needsLifting = false) :
      Begins frame (.literal value none) store store
  | constant {store : Store} (lifting : value.needsLifting = true)
      (lifted : store.tree.liftConstant store.names frame value = some (constant, tree, names)) :
      Begins frame (.literal value (some constant)) store ⟨tree, names⟩
  | localRef {store : Store} (refers : store.tree.Refers frame name ⟨.binding source, crossed⟩)
      (captured : store.tree.capture ⟨source, crossed⟩ = some (binding, between))
      (noted : between.noteUse binding boxed = some tree) :
      Begins frame (.localRef name binding boxed) store { store with tree }
  | function {store : Store} (plain : ∀ symbol ∈ name, symbol.isQualified = false)
      (drawn : store.names.fresh text = (uniqueName, names)) :
      Begins frame (.function name uniqueName arities) store { store with names }
  | recur {store : Store} (path : store.tree.lineage frame = some lineage)
      (aimed : recurTarget lineage = .ok (target, args.length)) :
      Begins frame (.recur args target) store store
  | selfRef {store : Store} (refers : store.tree.Refers frame name ⟨.self target, crossed⟩)
      (taken : store.tree.captureSelf frame ⟨target, crossed⟩ = some tree) :
      Begins frame (.selfRef name target) store { store with tree }
  | selfCall {store : Store} (refers : store.tree.Refers frame name ⟨.self target, crossed⟩)
      (taken : store.tree.captureSelf frame ⟨target, crossed⟩ = some between)
      (marked : between.updateFrame target (Frame.updateFunction .markNamed) = some tree) :
      Begins frame (.selfCall target args crossed) store { store with tree }
  | idle {store : Store} (idle : node.isIdle = true) : Begins frame node store store

/-- What a node does after its script. -/
inductive Ends : Node Expr → Store → Store → Prop
  | jump {store : Store} (jumped : node.jumped? = some target)
      (marked : store.tree.updateFrame target (Frame.updateFunction .markTail) = some tree) :
      Ends node store { store with tree }
  | idle {store : Store} (stays : node.jumped? = none) : Ends node store store

/-- Binds a name, which is unqualified, in a frame. -/
inductive Binds (frame : FrameId) (binding : BindingId) :
    Introduction → FrameTree → FrameTree → Prop
  | bare {before after : FrameTree} (plain : name.isQualified = false)
      (bound : before.bind frame name none true = some (binding, after)) :
      Binds frame binding .bare before after
  | initial {before after : FrameTree} (plain : name.isQualified = false)
      (judged : before.isUnboxable value = some unboxable)
      (bound : before.bind frame name (if isLoop then none else some value) (!unboxable) =
        some (binding, after)) :
      Binds frame binding (.initial isLoop value) before after

/-- What a node records about its place, and what was checked before it was made. -/
def Expr.Fits (config : Config) (place : Place) (expr : Expr) : Prop :=
  expr.position = place.position ∧
    match expr.node with
    | .function _ _ arities => Signature.Unambiguous (arities.map Arity.signature)
    | .localRef _ _ boxed => boxed = place.boxed
    | .call head _ fast => fast = isUnboxedOperator config head
    | .recur .. => place.position = .tail
    | _ => True

/-- Opens the frame of a block. -/
def FrameTree.enter (tree : FrameTree) (opening : Opening) (parent : FrameId) :
    FrameId × FrameTree :=
  (tree.frames.size, { tree with frames := tree.frames.push (opening.frame parent) })

/-- Counts the names of a loop, in the frame of the loop and only once. -/
inductive Counts (frame : FrameId) (arity : Nat) : FrameTree → FrameTree → Prop
  | filled {before after : FrameTree} (held : before.frame? frame = some loop)
      (kind : loop.kind = .loop) (unset : loop.loopArity? = none)
      (counted : before.updateFrame frame (Frame.fillLoop arity) = some after) :
      Counts frame arity before after

/-- A script, carried out in a frame, leads from one store to another. -/
inductive Enacts (config : Config) : FrameId → List Step → Store → Store → Prop
  | done : Enacts config frame [] store store
  | bind {before after : Store} (binds : Binds frame binding how before.tree tree)
      (rest : Enacts config frame steps { before with tree } after) :
      Enacts config frame (.bind binding how :: steps) before after
  | count {before after : Store} (counts : Counts frame arity before.tree tree)
      (rest : Enacts config frame steps { before with tree } after) :
      Enacts config frame (.count frame arity :: steps) before after
  | block {inner : FrameId} {before between after : Store}
      (opened : before.tree.enter opening frame = (inner, tree))
      (recorded : opening.Records inner known)
      (inside : Enacts config inner script { before with tree } between)
      (rest : Enacts config frame steps between after) :
      Enacts config frame (.block opening known script :: steps) before after
  | visit {before begun followed ended after : Store} (fits : expr.Fits config place)
      (begins : Begins frame expr.node before begun)
      (follows : Enacts config frame (expr.node.script place) begun followed)
      (ends : Ends expr.node followed ended)
      (rest : Enacts config frame steps ended after) :
      Enacts config frame (.visit place expr :: steps) before after

namespace Enacts

variable {config : Config} {frame : FrameId} {before between after : Store}

/-- A script is carried out part by part. -/
theorem append_iff {first second : List Step} :
    Enacts config frame (first ++ second) before after ↔
      ∃ between, Enacts config frame first before between ∧
        Enacts config frame second between after := by
  constructor
  · intro run
    induction first generalizing before with
    | nil => exact ⟨before, .done, run⟩
    | cons step first ih =>
      cases run with
      | bind binds rest =>
        obtain ⟨between, head, tail⟩ := ih rest
        exact ⟨between, .bind binds head, tail⟩
      | count counts rest =>
        obtain ⟨between, head, tail⟩ := ih rest
        exact ⟨between, .count counts head, tail⟩
      | block opened recorded inside rest =>
        obtain ⟨between, head, tail⟩ := ih rest
        exact ⟨between, .block opened recorded inside head, tail⟩
      | visit fits begins follows ends rest =>
        obtain ⟨between, head, tail⟩ := ih rest
        exact ⟨between, .visit fits begins follows ends head, tail⟩
  · rintro ⟨between, head, tail⟩
    induction head with
    | done => exact tail
    | bind binds _ ih => exact .bind binds (ih tail)
    | count counts _ ih => exact .count counts (ih tail)
    | block opened recorded inside _ _ ih => exact .block opened recorded inside (ih tail)
    | visit fits begins follows ends _ _ ih => exact .visit fits begins follows ends (ih tail)

theorem append {first second : List Step} (head : Enacts config frame first before between)
    (tail : Enacts config frame second between after) :
    Enacts config frame (first ++ second) before after :=
  append_iff.mpr ⟨between, head, tail⟩

/-- Visiting a node that does nothing itself is carrying out its script. -/
theorem visit_idle {expr : Expr} {place : Place} (idle : expr.node.isIdle = true)
    (fits : expr.Fits config place)
    (follows : Enacts config frame (expr.node.script place) before after) :
    Enacts config frame [.visit place expr] before after := by
  -- Only a `recur` does something at its end, and that is not idle.
  have stays : expr.node.jumped? = none := by
    cases node : expr.node with
    | recur args target => simp [node, Node.isIdle] at idle
    | _ => rfl
  exact .visit fits (.idle idle) follows (.idle stays) .done

end Enacts

end LispScope
