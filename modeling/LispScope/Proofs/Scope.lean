import LispScope.Proofs.Occurrence
import LispScope.Proofs.Soundness

/-!
# Lexical scopes

The scope of a node is what can be read off the tree around it: the names in force, innermost first,
and for every function around the node the names in force where its parameters begin. `Node.scopes`
hands scopes down: a name of a `let*` or `loop*` is visible in the later initial values and in the
body, a parameter in the body of its arity, an exception in its handler, a name of a `letfn*` in all
its functions and in the body, and the name of a function in all its arities.

During the analysis the same is found along the path of the current frame, in the names that the
frames bind and the functions that they belong to. Copies play no part in it.
-/
namespace LispScope

/-- Names with what they refer to, innermost first. -/
abbrev Env := List (Symbol × Referent)

/-- What is in force at a node. -/
structure Scope where
  /-- The names. -/
  env : Env
  /-- The frames of the functions around, innermost first, each with the names in force before its
  parameters, its own name among them. -/
  functions : List (FrameId × Env)

namespace Scope

/-- Nothing is in force around a form. -/
def top : Scope := ⟨[], []⟩

/-- What a name refers to. -/
def lookup (scope : Scope) (name : Symbol) : Option Referent := scope.env.lookup name

/-- What a name refers to before the parameters of a function around. -/
def around (scope : Scope) (frame : FrameId) (name : Symbol) : Option Referent :=
  (scope.functions.lookup frame).bind fun env => env.lookup name

/-- A binding of the tree hides what its name referred to. -/
def bind (tree : FrameTree) (scope : Scope) (id : BindingId) : Scope :=
  match tree.binding? id with
  | some binding => { scope with env := (binding.name, .binding id) :: scope.env }
  | none => scope

/-- The names in force before the parameters of a function with the given name. -/
def named (scope : Scope) (name : Option String) (frame : FrameId) : Env :=
  match name with
  | some name => (.simple name, .self frame) :: scope.env
  | none => scope.env

/-- A function is entered. -/
def enter (scope : Scope) (name : Option String) (frame : FrameId) : Scope :=
  ⟨scope.named name frame, (frame, scope.named name frame) :: scope.functions⟩

end Scope

/-- The scopes of initial values: each sees the names before its own. -/
def pairScopes (tree : FrameTree) : Scope → List (BindingId × Expr) → List (Scope × Expr)
  | _, [] => []
  | scope, (id, value) :: pairs => (scope, value) :: pairScopes tree (scope.bind tree id) pairs

/-- The scopes of the children of a node. What is not listed binds no names. -/
def Node.scopes (tree : FrameTree) (scope : Scope) : Node Expr → List (Scope × Expr)
  | function name _ arities =>
    arities.map fun arity =>
      (arity.params.foldl (Scope.bind tree) (scope.enter (name.map Symbol.name) arity.frame),
        arity.body)
  | lets _ pairs body _ =>
    pairScopes tree scope pairs ++ [((pairs.map Prod.fst).foldl (Scope.bind tree) scope, body)]
  | letfns pairs body _ =>
    let inner := (pairs.map Prod.fst).foldl (Scope.bind tree) scope
    pairs.map (fun pair => (inner, pair.2)) ++ [(inner, body)]
  | guarded body _ handler cleanup =>
    (scope, body) :: handler.toList.map (fun held => (scope.bind tree held.binding, held.body)) ++
      cleanup.toList.map (scope, ·)
  | node => node.children.map (scope, ·)

/-- Every child has a scope. -/
theorem Node.scopes_complete (tree : FrameTree) : Pass.Complete (Node.scopes tree) := by
  intro scope node
  have pairs (scope : Scope) (pairs : List (BindingId × Expr)) :
      (pairScopes tree scope pairs).map Prod.snd = pairs.map Prod.snd := by
    induction pairs generalizing scope with
    | nil => rfl
    | cons pair pairs ih => simp [pairScopes, ih]
  cases node with
  | guarded body frame handler cleanup =>
    cases handler <;> cases cleanup <;> simp [scopes, children]
  | lets isLoop bound body frame => simp [scopes, children, pairs]
  | _ => simp [scopes, children, Function.comp_def]

/-- The nodes of an expression with their scopes, in the order of the walk. -/
def Expr.scoped (tree : FrameTree) (expr : Expr) : List (Scope × Expr) :=
  Pass.nodes (Node.scopes tree) (Node.scopes_complete tree) .top expr

theorem Expr.map_snd_scoped (tree : FrameTree) (expr : Expr) :
    (expr.scoped tree).map Prod.snd = expr.walk :=
  Pass.map_snd_nodes _ _ _

theorem Expr.mem_scoped {tree : FrameTree} {expr found : Expr} {scope : Scope} :
    (scope, found) ∈ expr.scoped tree ↔ Below (Node.scopes tree) .top expr scope found :=
  (Below.iff_mem_nodes _).symm

/-- Scopes along scripts: a frame of a function is entered, other frames change nothing. -/
def scopeTraversal (tree : FrameTree) : Traversal Scope Scope where
  bind := Scope.bind tree
  count scope _ _ := scope
  enter scope opening known :=
    match opening, known with
    | .function context, some frame => scope.enter context.name frame
    | _, _ => scope
  view scope _ := scope
  pass := Node.scopes tree

namespace scopeTraversal

variable (tree : FrameTree)

@[simp] theorem view_eq (scope : Scope) (place : Place) :
    (scopeTraversal tree).view scope place = scope := rfl

@[simp] theorem bind_eq : (scopeTraversal tree).bind = Scope.bind tree := rfl

@[simp] theorem count_eq (scope : Scope) (frame : FrameId) (arity : Nat) :
    (scopeTraversal tree).count scope frame arity = scope := rfl

@[simp] theorem finish_countScript (scope : Scope) (isLoop : Bool) (frame : FrameId) (arity : Nat) :
    (scopeTraversal tree).finish scope (countScript isLoop frame arity) = scope := by
  cases isLoop <;> rfl

@[simp] theorem pass_eq : (scopeTraversal tree).pass = Node.scopes tree := rfl

theorem views_pairs (scope : Scope) (isLoop : Bool) (pairs : List (BindingId × Expr)) :
    (scopeTraversal tree).views scope (pairScript isLoop pairs) = pairScopes tree scope pairs := by
  induction pairs generalizing scope with
  | nil => simp [pairScript, pairScopes]
  | cons pair pairs ih => exact (Traversal.views_pairs_cons ..).trans (congrArg _ (ih _))

theorem views_arity (scope : Scope) (name : Option Symbol) (uniqueName : String)
    (arity : Arity Expr) (steps : List Step) :
    (scopeTraversal tree).views scope (arity.block name uniqueName :: steps) =
      (arity.params.foldl (Scope.bind tree) (scope.enter (name.map Symbol.name) arity.frame),
        arity.body) :: (scopeTraversal tree).views scope steps := by
  simp only [Arity.block, Traversal.views_block, Traversal.views_append, Traversal.views_map_bind,
    Traversal.finish_map_bind, Traversal.views_visit, Traversal.views_nil, view_eq, bind_eq]
  simp [scopeTraversal, Arity.context]

theorem lawful : (scopeTraversal tree).Lawful := by
  intro scope place node
  have entered (opening : Opening) (known : Option FrameId)
      (other : ∀ context, opening ≠ .function context) :
      (scopeTraversal tree).enter scope opening known = scope := by
    cases opening <;> first | rfl | exact absurd rfl (other _)
  cases node with
  | function name uniqueName arities =>
    induction arities with
    | nil => simp [Node.script, Node.scopes]
    | cons arity arities ih => exact (views_arity ..).trans (congrArg _ ih)
  | sequence items =>
    obtain rfl | ⟨items, last, rfl⟩ := List.eq_nil_or_concat items
    · simp [Node.script, Traversal.views_sequence, Node.scopes, Node.children]
    · simp [Node.script, Traversal.views_sequence, Node.scopes, Node.children]
  | lets isLoop pairs body frame =>
    cases isLoop <;>
      simp [Node.script, Traversal.views_append, Traversal.finish_pairs, views_pairs, Node.scopes,
        entered]
  | letfns pairs body frame =>
    simp [Node.script, Traversal.views_append, Node.scopes, entered]
  | recur args target => cases target <;> simp [Node.script, Node.scopes, Node.children]
  | guarded body frame handler cleanup =>
    cases handler <;> cases cleanup <;>
      simp [Node.script, Handler.block, Node.scopes, entered]
  | _ => simp [Node.script, Traversal.views_append, Node.scopes, Node.children]

end scopeTraversal

/-! ### What names mean along a path -/

namespace FrameTree

variable {tree before after : FrameTree} {id : FrameId} {ids : List FrameId} {name : Symbol}

/-- What a name means by a frame alone, copies apart. -/
def own? (tree : FrameTree) (id : FrameId) (name : Symbol) : Option Referent :=
  (tree.bound? id name).map .binding <|> (tree.self? id name).map .self

/-- What a name means at the beginning of a path. -/
def meaning (tree : FrameTree) (ids : List FrameId) (name : Symbol) : Option Referent :=
  ids.findSome? (tree.own? · name)

/-- What a name means before the parameters of a function, given the path outside of it. -/
def around (tree : FrameTree) (frame : FrameId) (outer : List FrameId) (name : Symbol) :
    Option Referent :=
  (tree.self? frame name).map .self <|> tree.meaning outer name

theorem meaning_cons (tree : FrameTree) (id : FrameId) (ids : List FrameId) (name : Symbol) :
    tree.meaning (id :: ids) name = (tree.own? id name <|> tree.meaning ids name) := by
  simp only [meaning, List.findSome?_cons]
  cases tree.own? id name <;> rfl

/-- Where a frame does not bind a name, the name means what it means before the parameters. -/
theorem meaning_of_unbound (unbound : tree.bound? id name = none) :
    tree.meaning (id :: ids) name = tree.around id ids name := by
  simp [meaning_cons, own?, around, unbound]

theorem own?_of_silent (silent : tree.answer? id name = none) : tree.own? id name = none := by
  obtain ⟨bound, _, self⟩ := answer?_none.mp silent
  simp [own?, bound, self]

/-- Frames that have nothing to say about a name can be skipped. -/
theorem meaning_append_of_silent {inner outer : List FrameId}
    (silent : ∀ other ∈ inner, tree.own? other name = none) :
    tree.meaning (inner ++ outer) name = tree.meaning outer name := by
  rw [meaning, List.findSome?_append, List.findSome?_eq_none_iff.mpr silent]
  rfl

/-- A binding that a name means is bound on the path, and no frame before has a say. -/
theorem meaning_binding {binding : BindingId}
    (means : tree.meaning ids name = some (.binding binding)) :
    ∃ inner frame outer, ids = inner ++ frame :: outer ∧
      (∀ other ∈ inner, tree.own? other name = none) ∧ tree.bound? frame name = some binding := by
  obtain ⟨inner, frame, outer, rfl, own, silent⟩ := List.findSome?_eq_some_iff.mp means
  refine ⟨inner, frame, outer, rfl, silent, ?_⟩
  cases bound : tree.bound? frame name with
  | some other => simpa [own?, bound] using own
  | none => simp [own?, bound] at own

/-- The frames of a path bind the same names and belong to the same functions. -/
def AgreesOn (ids : List FrameId) (before after : FrameTree) : Prop :=
  ∀ id ∈ ids, (∀ name, after.bound? id name = before.bound? id name) ∧
    (∀ name, after.self? id name = before.self? id name) ∧
    after.isFunction id = before.isFunction id

theorem SameNames.agreesOn (same : before.SameNames after) : AgreesOn ids before after :=
  fun id _ => ⟨same.bound? id, same.self? id, same.isFunction id⟩

theorem AgreesOn.own? (agrees : AgreesOn ids before after) (member : id ∈ ids) (name : Symbol) :
    after.own? id name = before.own? id name := by
  obtain ⟨bound, self, _⟩ := agrees id member
  rw [FrameTree.own?, FrameTree.own?, bound, self]

theorem AgreesOn.meaning (agrees : AgreesOn ids before after) (name : Symbol) :
    after.meaning ids name = before.meaning ids name := by
  induction ids with
  | nil => rfl
  | cons id ids ih =>
    rw [meaning_cons, meaning_cons, agrees.own? (List.mem_cons_self ..),
      ih fun other member => agrees other (List.mem_cons_of_mem _ member)]

theorem AgreesOn.around {outer : List FrameId} (agrees : AgreesOn (id :: outer) before after)
    (name : Symbol) : after.around id outer name = before.around id outer name := by
  have rest : AgreesOn outer before after :=
    fun other member => agrees other (List.mem_cons_of_mem _ member)
  rw [FrameTree.around, FrameTree.around, rest.meaning, (agrees id (List.mem_cons_self ..)).2.1]

theorem AgreesOn.filter (agrees : AgreesOn ids before after) :
    ids.filter after.isFunction = ids.filter before.isFunction :=
  List.filter_congr fun id member => (agrees id member).2.2

theorem AgreesOn.mono {others : List FrameId} (agrees : AgreesOn ids before after)
    (fewer : ∀ id ∈ others, id ∈ ids) : AgreesOn others before after :=
  fun id member => agrees id (fewer id member)

/-- A tree that grows and keeps the names of a frame agrees on it. -/
theorem Grows.agrees (grows : before.Grows after) {frame : Frame}
    (held : before.frame? id = some frame) (names : KeepsNames id before after) :
    (∀ name, after.bound? id name = before.bound? id name) ∧
      (∀ name, after.self? id name = before.self? id name) ∧
      after.isFunction id = before.isFunction id := by
  obtain ⟨grown, held', same⟩ := grows.frames id frame held
  obtain ⟨kept, held'', sameLocals, _⟩ := names frame held
  cases held'.symm.trans held''
  refine ⟨?_, ?_, ?_⟩
  · simp [bound?, held, held', sameLocals]
  · simp [self?, held, held', Frame.self?, isNamed_of_outline same.outline]
  · exact grows.isFunction held

theorem Path.mem_frame (path : tree.Path id ids) {other : FrameId} (member : other ∈ ids) :
    ∃ frame, tree.frame? other = some frame := by
  obtain ⟨inner, outer, rfl⟩ := List.append_of_mem member
  exact path.suffix.frame

/-- A path that got one frame longer is split at that frame or further out. -/
theorem split_longer {inner other : FrameId} {first outer : List FrameId}
    (split : inner :: ids = first ++ other :: outer) :
    (other = inner ∧ outer = ids) ∨ ∃ rest, ids = rest ++ other :: outer := by
  cases first with
  | nil =>
    cases split
    exact .inl ⟨rfl, rfl⟩
  | cons _ rest =>
    cases split
    exact .inr ⟨rest, rfl⟩

/-- A frame that is opened comes after all frames of the path. -/
theorem Path.lt_opened {opening : Opening} {frame inner other : FrameId}
    (path : before.Path frame ids) (opened : before.enter opening frame = (inner, after))
    (member : other ∈ ids) : other < inner := by
  obtain ⟨_, found⟩ := path.mem_frame member
  exact (enter_some opened).1 ▸ frame?_lt found

theorem enter_agreesOn {opening : Opening} {frame inner : FrameId}
    (opened : before.enter opening frame = (inner, after)) (path : before.Path frame ids) :
    AgreesOn ids before after := by
  intro other member
  obtain ⟨others, _⟩ := enter_views opened
  obtain ⟨bound, _, self, function⟩ := others other (Nat.ne_of_lt (path.lt_opened opened member))
  exact ⟨bound, self, function⟩

/-- Binding a name in the current frame changes nothing further out. -/
theorem bind_agreesOn {frame other : FrameId} {initial : Option Expr} {needsBox : Bool}
    {binding : BindingId} {inner outer : List FrameId}
    (bound : before.bind frame name initial needsBox = some (binding, after)) (sound : before.Sound)
    (path : before.Path frame ids) (split : ids = inner ++ other :: outer) :
    AgreesOn outer before after := by
  obtain ⟨bounds, _, selfs, functions⟩ := bind_views bound
  obtain ⟨rest, rfl⟩ := path.head
  intro id member
  -- The current frame is the first one on its path, and it occurs there only once.
  have elsewhere : id ≠ frame := by
    rintro rfl
    have distinct := List.nodup_cons.mp (path.nodup sound.ordered)
    cases inner with
    | nil =>
      cases split
      exact distinct.1 member
    | cons first inner =>
      cases split
      exact distinct.1 (by simp [member])
  refine ⟨fun asked => ?_, selfs id, functions id⟩
  rw [bounds, if_neg fun same => elsewhere same.1]

/-- Binding a name in the current frame does not change what names mean before the parameters of a
function. -/
theorem bind_around {frame other : FrameId} {asked : Symbol} {initial : Option Expr}
    {needsBox : Bool} {binding : BindingId} {inner outer : List FrameId}
    (bound : before.bind frame name initial needsBox = some (binding, after)) (sound : before.Sound)
    (path : before.Path frame ids) (split : ids = inner ++ other :: outer) :
    after.around other outer asked = before.around other outer asked := by
  obtain ⟨_, _, selfs, _⟩ := bind_views bound
  rw [around, (bind_agreesOn bound sound path split).meaning, selfs]
  rfl

end FrameTree

/-- What a run inside a new frame leaves alone: the names of all frames on the path outside. -/
theorem Enacts.agreesOn {config : Config} {opening : Opening} {frame inner : FrameId}
    {ids : List FrameId} {script : List Step} {tree : FrameTree} {before between : Store}
    (opened : before.tree.enter opening frame = (inner, tree))
    (run : Enacts config inner script { before with tree } between)
    (path : before.tree.Path frame ids) : FrameTree.AgreesOn ids before.tree between.tree := by
  intro id member
  obtain ⟨held, found⟩ := path.mem_frame member
  have old := FrameTree.frame?_lt found
  have ⟨grows, keeps⟩ := FrameTree.enter_grows opened
  have elsewhere := Nat.ne_of_lt ((FrameTree.enter_some opened).1 ▸ old)
  have names := run.keepsNames (Nat.lt_of_lt_of_le old grows.size) fun same =>
    absurd same elsewhere
  exact (grows.trans run.grows).agrees found ((keeps id old).trans names)

/-! ### Scopes and paths -/

/-- A scope shows what the path of the moment holds. -/
structure Sees (tree : FrameTree) (ids : List FrameId) (scope : Scope) : Prop where
  lookup : ∀ name, name.isQualified = false → scope.lookup name = tree.meaning ids name
  functions : scope.functions.map Prod.fst = ids.filter tree.isFunction
  around : ∀ inner frame outer, ids = inner ++ frame :: outer → tree.isFunction frame = true →
    ∀ name, name.isQualified = false → scope.around frame name = tree.around frame outer name

namespace Sees

variable {tree before after final : FrameTree} {ids : List FrameId} {scope : Scope}

theorem congr (sees : Sees before ids scope) (agrees : FrameTree.AgreesOn ids before after) :
    Sees after ids scope := by
  constructor
  case lookup => exact fun name plain => (sees.lookup name plain).trans (agrees.meaning name).symm
  case functions => exact sees.functions.trans agrees.filter.symm
  case around =>
    rintro inner frame outer rfl function name plain
    have here := agrees frame (by simp)
    rw [here.2.2] at function
    have outside : FrameTree.AgreesOn (frame :: outer) before after :=
      agrees.mono fun id member => List.mem_append_right _ member
    rw [sees.around inner frame outer rfl function name plain, outside.around]

/-- A name that is bound in the current frame is seen first. -/
theorem bind {frame : FrameId} {name : Symbol} {initial : Option Expr} {needsBox : Bool}
    {binding : BindingId} (sees : Sees before ids scope) (sound : before.Sound)
    (path : before.Path frame ids)
    (bound : before.bind frame name initial needsBox = some (binding, after))
    (grows : after.Grows final) : Sees after ids (scope.bind final binding) := by
  obtain ⟨bounds, _, selfs, functions⟩ := FrameTree.bind_views bound
  obtain ⟨next, pushed, _⟩ := FrameTree.bind_some bound
  -- The name of a binding never changes, so it can be read off the final tree.
  have extended : scope.bind final binding =
      { scope with env := (name, .binding binding) :: scope.env } := by
    have here := FrameTree.binding?_push pushed binding
    rw [if_pos next] at here
    obtain ⟨kept, found, same⟩ := grows.bindings _ _ here
    rw [Scope.bind, found]
    simp [same.name, Binding.fresh]
  rw [extended]
  constructor
  case lookup =>
    obtain ⟨outer, rfl⟩ := path.head
    intro asked plain
    have old := sees.lookup asked plain
    have outside := FrameTree.bind_agreesOn bound sound path (List.nil_append _).symm
    rw [FrameTree.meaning_cons] at old
    rw [FrameTree.meaning_cons, outside.meaning, FrameTree.own?, bounds, selfs]
    -- The new name comes first on both sides; others are looked up as before.
    by_cases same : asked = name
    · subst same
      simp [Scope.lookup]
    · have apart : (asked == name) = false := by simpa using same
      simp only [Scope.lookup, List.lookup_cons, apart] at old ⊢
      rw [if_neg fun both => same both.2]
      exact old
  case functions =>
    rw [show after.isFunction = before.isFunction from funext functions]
    exact sees.functions
  case around =>
    intro inner other further split function asked plain
    rw [functions] at function
    rw [FrameTree.bind_around bound sound path split]
    exact sees.around inner other further split function asked plain

/-- Before the parameters of a function a name means the function, if it is its own name, and
otherwise what it means outside. -/
theorem lookup_named {context : FnContext} {frame : Frame} {inner : FrameId} {name : Symbol}
    (sees : Sees tree ids scope) (held : tree.frame? inner = some frame)
    (known : frame.function? = some context) (plain : name.isQualified = false) :
    (scope.named context.name inner).lookup name = tree.around inner ids name := by
  -- A function is named by a text, a reference by a symbol without a namespace.
  have same : context.name = some name.name ↔ context.name.map Symbol.simple = some name := by
    obtain ⟨ns, text⟩ := name
    cases ns with
    | none => cases context.name <;> simp [Symbol.simple]
    | some ns => cases plain
  have old := sees.lookup name plain
  simp only [FrameTree.around, FrameTree.self?, held, Option.bind_some, Frame.self?,
    Frame.isNamed, known, Option.any_some, decide_eq_true_eq, same]
  cases named : context.name with
  | none => simpa [Scope.named, Scope.lookup] using old
  | some text =>
    by_cases here : name = .simple text
    · subst here
      simp [Scope.named]
    · have apart : (name == Symbol.simple text) = false := by simpa using here
      simp only [Scope.named, List.lookup_cons, apart]
      simpa [Ne.symm here, Scope.lookup] using old

/-- The frame of a function is seen with its own name. -/
theorem enter_function {context : FnContext} {frame inner : FrameId} (sees : Sees before ids scope)
    (path : before.Path frame ids)
    (opened : before.enter (.function context) frame = (inner, after)) :
    Sees after (inner :: ids) (scope.enter context.name inner) := by
  obtain ⟨_, unbound, _⟩ := FrameTree.enter_views opened
  obtain ⟨_, _, _, held, _⟩ := FrameTree.enter_some opened
  have sees := sees.congr (FrameTree.enter_agreesOn opened path)
  have function : after.isFunction inner = true := by
    simp [FrameTree.isFunction, held, Frame.isFunction, Opening.kind]
  constructor
  case lookup =>
    intro name plain
    rw [FrameTree.meaning_of_unbound (unbound name)]
    exact sees.lookup_named held rfl plain
  case functions =>
    rw [List.filter_cons, if_pos function, ← sees.functions]
    rfl
  case around =>
    intro first other outer split function name plain
    -- Either the new function is asked for, or one that was around it before.
    obtain ⟨rfl, rfl⟩ | ⟨rest, rfl⟩ := FrameTree.split_longer split
    · simp only [Scope.around, Scope.enter, List.lookup_cons, beq_self_eq_true, Option.bind_some]
      exact sees.lookup_named held rfl plain
    · have apart : (other == inner) = false := by
        simpa using Nat.ne_of_lt (path.lt_opened opened (by simp))
      simp only [Scope.around, Scope.enter, List.lookup_cons, apart]
      exact sees.around rest other outer rfl function name plain

/-- A frame that belongs to no function changes nothing. -/
theorem enter_plain {opening : Opening} {frame inner : FrameId} (sees : Sees before ids scope)
    (path : before.Path frame ids) (opened : before.enter opening frame = (inner, after))
    (plain : ∀ context, opening ≠ .function context) : Sees after (inner :: ids) scope := by
  obtain ⟨_, unbound, _⟩ := FrameTree.enter_views opened
  obtain ⟨_, _, _, held, _⟩ := FrameTree.enter_some opened
  have sees := sees.congr (FrameTree.enter_agreesOn opened path)
  obtain ⟨noFunction, otherKind⟩ := Opening.function?_of_plain plain
  have notFunction : after.isFunction inner = false := by
    simp [FrameTree.isFunction, held, Frame.isFunction, otherKind]
  have unnamed (name : Symbol) : after.self? inner name = none := by
    simp [FrameTree.self?, held, Frame.self?, Frame.isNamed, noFunction]
  constructor
  case lookup =>
    intro name plain
    rw [FrameTree.meaning_of_unbound (unbound name), FrameTree.around, unnamed]
    exact sees.lookup name plain
  case functions =>
    rw [List.filter_cons, if_neg (by simp [notFunction])]
    exact sees.functions
  case around =>
    intro first other outer split function name plain
    obtain ⟨rfl, rfl⟩ | ⟨rest, rfl⟩ := FrameTree.split_longer split
    · rw [notFunction] at function
      cases function
    · exact sees.around rest other outer rfl function name plain

/-- A frame that is opened binds no names yet; that of a function is seen with its own name. -/
theorem enter {opening : Opening} {frame inner : FrameId} {known : Option FrameId}
    (sees : Sees before ids scope) (path : before.Path frame ids)
    (opened : before.enter opening frame = (inner, after)) (recorded : opening.Records inner known) :
    Sees after (inner :: ids) ((scopeTraversal final).enter scope opening known) := by
  cases opening with
  | function context =>
    obtain ⟨rfl, _⟩ := recorded
    exact sees.enter_function path opened
  | _ => exact sees.enter_plain path opened nofun

end Sees

end LispScope
