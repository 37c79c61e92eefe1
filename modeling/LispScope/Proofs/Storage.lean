import LispScope.Proofs.Layout
import LispScope.Proofs.Usage

/-!
# Unboxed storage

Where a name is kept unboxed, every value that is stored in it has to have an unboxed form: a constant
with a machine representation, the result of a fast call, or a local of the same kind. The greatest
set of names with this property is `Expr.Storable`.

Main statement: `Session.analyze_storage`. Whether a name is kept unboxed is decided once, by its
initial value, before the body in which a `recur` may set it anew. So the names that are left unboxed
begin well (`Expr.BeginsUnboxed`), and such a name is storable just if nothing is wrong with what
`recur` stores in it and in the names that it takes its value from.

That they begin well is an invariant of runs. Only a `let*` or `loop*` makes a name without a box, and
it judges the initial value by the flags of that moment; these can only get stricter later.
-/
namespace LispScope

/-! ### What is stored in a name -/

/-- A node whose value has an unboxed form, if the locals of a set have one. -/
inductive Node.Unboxed (P : BindingId → Prop) : Node Expr → Prop
  | literal (form : value.hasUnboxedForm = true) : Unboxed P (.literal value lifted)
  | call : Unboxed P (.call head args true)
  | localRef (held : P binding) : Unboxed P (.localRef name binding boxed)

theorem Node.Unboxed.imp {P Q : BindingId → Prop} {node : Node Expr} (unboxed : node.Unboxed P)
    (weaker : ∀ name binding boxed, node = .localRef name binding boxed → P binding → Q binding) :
    node.Unboxed Q := by
  cases unboxed with
  | literal form => exact .literal form
  | call => exact .call
  | localRef held => exact .localRef (weaker _ _ _ rfl held)

namespace Node

/-- The names of a `let*` or `loop*` with their initial values. -/
def initials : Node ε → List (BindingId × ε)
  | lets _ pairs _ _ => pairs
  | _ => []

/-- The names that a node introduces without a value: parameters, exceptions and the functions of a
`letfn*`. -/
def bareNames : Node ε → List BindingId
  | function _ _ arities => arities.flatMap Arity.params
  | letfns pairs _ _ => pairs.map Prod.fst
  | guarded _ _ handler _ => handler.toList.map Handler.binding
  | _ => []

end Node

namespace Expr

variable (expr : Expr)

/-- A `let*` or `loop*` inside the expression gives a name its initial value. -/
def Initializes (id : BindingId) (value : Expr) : Prop :=
  ∃ found ∈ expr.walk, (id, value) ∈ found.node.initials

/-- A `recur` inside the expression gives a name of a `loop*` its next value. -/
def Resets (id : BindingId) (value : Expr) : Prop :=
  ∃ loop ∈ expr.walk, ∃ jump ∈ expr.walk, ∃ pairs body frame args initial, ∃ index : Nat,
    loop.node = .lets true pairs body frame ∧ jump.node = .recur args (.loop frame) ∧
      pairs[index]? = some (id, initial) ∧ args[index]? = some value

/-- A value is stored in a name, at first or later. -/
def Stores (id : BindingId) (value : Expr) : Prop :=
  expr.Initializes id value ∨ expr.Resets id value

/-- Names of `let*` and `loop*` in which only values with an unboxed form are stored. -/
def KeepsUnboxed (P : BindingId → Prop) : Prop :=
  ∀ id, P id → (∃ value, expr.Initializes id value) ∧
    ∀ value, expr.Stores id value → value.node.Unboxed P

/-- The greatest set of names in which only values with an unboxed form are stored. -/
def Storable (id : BindingId) : Prop := ∃ P, expr.KeepsUnboxed P ∧ P id

/-- The least set of names whose initial value has an unboxed form. -/
inductive BeginsUnboxed (expr : Expr) : BindingId → Prop
  | intro {id : BindingId} {value : Expr} (given : expr.Initializes id value)
      (unboxed : value.node.Unboxed (BeginsUnboxed expr)) : BeginsUnboxed expr id

/-- A name is given the value of another one as it is. -/
def Draws (id other : BindingId) : Prop :=
  ∃ value name boxed, expr.Stores id value ∧ value.node = .localRef name other boxed

end Expr

/-! ### Greatest and least -/

namespace Expr

variable {expr : Expr}

theorem keepsUnboxed_storable : expr.KeepsUnboxed expr.Storable := by
  rintro id ⟨P, keeps, holds⟩
  obtain ⟨begun, values⟩ := keeps id holds
  refine ⟨begun, fun value stored => (values value stored).imp fun _ _ _ _ held => ?_⟩
  exact ⟨P, keeps, held⟩

/-- Whatever a storable name draws on is storable. -/
theorem Storable.draws {id other : BindingId} (storable : expr.Storable id)
    (draws : Relation.ReflTransGen expr.Draws id other) : expr.Storable other := by
  induction draws with
  | refl => exact storable
  | tail _ last ih =>
    obtain ⟨value, name, boxed, stored, node⟩ := last
    have unboxed := (keepsUnboxed_storable _ ih).2 value stored
    rw [node] at unboxed
    cases unboxed with
    | localRef held => exact held

/-- Where names have one initial value each, a name that begins unboxed is storable unless a `recur`
stores something else in it, or in a name that it draws on. -/
theorem BeginsUnboxed.storable_iff {id : BindingId} (begins : expr.BeginsUnboxed id)
    (once : ∀ id value other, expr.Initializes id value → expr.Initializes id other → value = other) :
    expr.Storable id ↔ ∀ other, Relation.ReflTransGen expr.Draws id other →
      ∀ value, expr.Resets other value → value.node.Unboxed expr.Storable := by
  constructor
  · intro storable other draws value set
    exact (keepsUnboxed_storable _ (storable.draws draws)).2 value (.inr set)
  intro resets
  -- A value that is stored in a name of the chain is unboxed, if the locals further on are.
  have unboxed {other : BindingId} (draws : Relation.ReflTransGen expr.Draws id other)
      (good : expr.BeginsUnboxed other ∨ expr.Storable other) (value : Expr)
      (stored : expr.Stores other value) :
      value.node.Unboxed fun next => expr.BeginsUnboxed next ∨ expr.Storable next := by
    rcases stored with given | set
    · rcases good with ⟨given', unboxed⟩ | storable
      · cases once _ _ _ given given'
        exact unboxed.imp fun _ _ _ _ => .inl
      · have unboxed := (keepsUnboxed_storable _ storable).2 value (.inl given)
        exact unboxed.imp fun _ _ _ _ => .inr
    · exact (resets other draws value set).imp fun _ _ _ _ => .inr
  have good (other : BindingId) (draws : Relation.ReflTransGen expr.Draws id other) :
      expr.BeginsUnboxed other ∨ expr.Storable other := by
    induction draws with
    | refl => exact .inl begins
    | tail draws last ih =>
      obtain ⟨value, name, boxed, stored, node⟩ := last
      have unboxed := unboxed draws ih value stored
      rw [node] at unboxed
      cases unboxed with
      | localRef held => exact held
  -- So the chain itself is a set of names that keep unboxed.
  refine ⟨Relation.ReflTransGen expr.Draws id, fun other draws => ⟨?_, fun value stored => ?_⟩, .refl⟩
  · rcases good other draws with ⟨given, _⟩ | storable
    · exact ⟨_, given⟩
    · exact (keepsUnboxed_storable _ storable).1
  · refine (unboxed draws (good other draws) value stored).imp fun name next boxed node _ => ?_
    exact draws.tail ⟨value, name, boxed, stored, node⟩

end Expr

/-! ### Flags along a run -/

/-- A binding is kept unboxed. -/
def FrameTree.Unboxed (tree : FrameTree) (id : BindingId) : Prop :=
  ∃ binding, tree.binding? id = some binding ∧ binding.needsBox = false

namespace FrameTree

variable {before after : FrameTree} {id : BindingId}

/-- No binding loses its box. -/
theorem Unboxed.of_keeps (keeps : before.KeepsBindings after)
    (size : after.bindings.size = before.bindings.size) (unboxed : after.Unboxed id) :
    before.Unboxed id := by
  obtain ⟨binding, held, flag⟩ := unboxed
  have inRange : id < before.bindings.size := size ▸ binding?_lt held
  have old : before.binding? id = some before.bindings[id] := Array.getElem?_eq_getElem inRange
  obtain ⟨kept, held', agrees⟩ := keeps id _ old
  cases held.symm.trans held'
  refine ⟨_, old, ?_⟩
  rcases agrees.boxing with ⟨same, _⟩ | ⟨forced, _⟩
  · rw [← same]
    exact flag
  · rw [forced] at flag
    cases flag

/-- A new binding is unboxed only if it was made so. -/
theorem Unboxed.of_push {binding : Binding} (pushed : after.bindings = before.bindings.push binding)
    (unboxed : after.Unboxed id) :
    before.Unboxed id ∨ id = before.bindings.size ∧ binding.needsBox = false := by
  obtain ⟨held, found, flag⟩ := unboxed
  rw [binding?_push pushed] at found
  split at found
  next same =>
    cases found
    exact .inr ⟨same, flag⟩
  next => exact .inl ⟨held, found, flag⟩

theorem Unboxed.of_captures (captures : before.Captures after) (unboxed : after.Unboxed id) :
    before.Unboxed id := by
  induction captures with
  | done => exact unboxed
  | copy copies _ ih =>
    rcases (ih unboxed).of_push copies.bindings with old | ⟨_, flag⟩
    · exact old
    · cases flag
  | use noted _ ih => exact (ih unboxed).of_keeps (noteUse_keepsBindings noted) (noteUse_size noted)

theorem Unboxed.of_bindings (same : after.bindings = before.bindings) (unboxed : after.Unboxed id) :
    before.Unboxed id := by
  obtain ⟨binding, held, flag⟩ := unboxed
  rw [binding?, same] at held
  exact ⟨binding, held, flag⟩

/-- A value that is found unboxable has an unboxed form, if all unboxed locals have one. -/
theorem unboxed_of_isUnboxable {tree : FrameTree} {P : BindingId → Prop} {value : Expr}
    (flags : ∀ id, tree.Unboxed id → P id) (judged : tree.isUnboxable value = some true) :
    value.node.Unboxed P := by
  unfold isUnboxable at judged
  split at judged
  next node =>
    rw [node]
    exact .literal (Option.some.inj judged)
  next node =>
    rw [node]
    cases judged
    exact .call
  next node =>
    rw [node]
    obtain ⟨binding, held, flag⟩ := Option.map_eq_some_iff.mp judged
    exact .localRef (flags _ ⟨binding, held, by simpa using flag⟩)
  next => cases judged

end FrameTree

/-- What a node does itself makes no binding that is unboxed. -/
theorem Effect.unboxed {frame : FrameId} {node : Node Expr} {before after : FrameTree}
    {id : BindingId} (effect : Effect frame node before after) (unboxed : after.Unboxed id) :
    before.Unboxed id := by
  cases effect with
  | lifts _ _ lifts => exact unboxed.of_bindings lifts.bindings
  | uses _ _ _ captured noted => exact unboxed.of_captures (FrameTree.use_captures captured noted)
  | recurs _ _ _ taken marked =>
    have captures := FrameTree.captureSelf_captures taken
    rcases marked with ⟨_, rfl⟩ | ⟨_, updated⟩
    · exact unboxed.of_captures captures
    · obtain ⟨_, _, same, _⟩ := FrameTree.updateFrame_some updated
      exact (unboxed.of_bindings same).of_captures captures

/-- The names that a script binds to initial values. -/
def initialsOf : List Step → List (BindingId × Expr)
  | [] => []
  | .visit .. :: steps | .count .. :: steps => initialsOf steps
  | .bind _ .bare :: steps => initialsOf steps
  | .bind id (.initial _ value) :: steps => (id, value) :: initialsOf steps
  | .block _ _ script :: steps => initialsOf script ++ initialsOf steps

@[simp] theorem initialsOf_append (first second : List Step) :
    initialsOf (first ++ second) = initialsOf first ++ initialsOf second := by
  induction first using initialsOf.induct <;> simp_all [initialsOf]

@[simp] theorem initialsOf_map_visit {γ : Type} (place : Place) (items : List γ) (pick : γ → Expr) :
    initialsOf (items.map fun item => .visit place (pick item)) = [] := by
  induction items <;> simp_all [initialsOf]

@[simp] theorem initialsOf_map_bare {γ : Type} (items : List γ) (pick : γ → BindingId) :
    initialsOf (items.map fun item => .bind (pick item) .bare) = [] := by
  induction items <;> simp_all [initialsOf]

@[simp] theorem initialsOf_countScript (isLoop : Bool) (frame : FrameId) (arity : Nat) :
    initialsOf (countScript isLoop frame arity) = [] := by
  cases isLoop <;> simp [countScript, initialsOf]

theorem initialsOf_pairs (isLoop : Bool) (pairs : List (BindingId × Expr)) :
    initialsOf (pairScript isLoop pairs) = pairs := by
  induction pairs with
  | nil => simp [pairScript, initialsOf]
  | cons pair pairs ih => simpa [pairScript, initialsOf] using ih

/-- A script binds the names of its node. -/
theorem initialsOf_script (place : Place) (node : Node Expr) :
    initialsOf (node.script place) = node.initials := by
  have visits (place : Place) (items : List Expr) : initialsOf (items.map (.visit place)) = [] := by
    simpa using initialsOf_map_visit place items fun item => item
  cases node with
  | function name uniqueName arities =>
    simp only [Node.script, Node.initials]
    induction arities with
    | nil => simp [initialsOf]
    | cons arity arities ih => simp [initialsOf, Arity.block, ih]
  | recur args target => cases target <;> exact visits _ args
  | lets isLoop pairs body frame =>
    simp [Node.script, Node.initials, initialsOf, initialsOf_pairs]
  | sequence items =>
    simp only [Node.script, Node.initials]
    induction items using sequenceScript.induct with
    | case1 => simp [sequenceScript, initialsOf]
    | case2 last => simp [sequenceScript, initialsOf]
    | case3 first rest more ih =>
      obtain ⟨second, rest, rfl⟩ := List.exists_cons_of_ne_nil more
      simpa [sequenceScript, initialsOf] using ih
  | guarded body frame handler cleanup =>
    cases handler <;> cases cleanup <;>
      simp [Node.script, Node.initials, initialsOf, Handler.block]
  | call | letfns | branch | dispatch =>
    simp [Node.script, Node.initials, initialsOf, visits]
  | _ => exact visits _ _

/-- A set of names that holds the unboxed ones of the beginning, and a name whenever its initial value
is unboxed under the set, holds all that are unboxed at the end. -/
theorem Enacts.unboxed {P : BindingId → Prop} {config : Config} {frame : FrameId}
    {steps : List Step} {before after : Store} (run : Enacts config frame steps before after)
    (bound : ∀ pair ∈ initialsOf steps, pair.2.node.Unboxed P → P pair.1)
    (below : ∀ expr ∈ reached steps, ∀ pair ∈ expr.node.initials, pair.2.node.Unboxed P → P pair.1)
    (flags : ∀ id, before.tree.Unboxed id → P id) : ∀ id, after.tree.Unboxed id → P id := by
  induction run with
  | done => exact flags
  | @bind _ _ how _ _ _ _ binds _ ih =>
    rw [reached_bind] at below
    cases binds with
    | bare _ made =>
      rw [initialsOf] at bound
      refine ih bound below fun id unboxed => ?_
      obtain ⟨_, pushed, _⟩ := FrameTree.bind_some made
      rcases unboxed.of_push pushed with old | ⟨_, flag⟩
      · exact flags id old
      · cases flag
    | initial _ judged made =>
      rw [initialsOf] at bound
      obtain ⟨here, bound⟩ := List.forall_mem_cons.mp bound
      refine ih bound below fun id unboxed => ?_
      obtain ⟨next, pushed, _⟩ := FrameTree.bind_some made
      rcases unboxed.of_push pushed with old | ⟨same, flag⟩
      · exact flags id old
      -- The name has no box because its value was found unboxable.
      · rw [same, ← next]
        refine here (FrameTree.unboxed_of_isUnboxable flags ?_)
        rw [judged]
        simpa [Binding.fresh] using flag
  | count counts _ ih =>
    rw [initialsOf] at bound
    rw [reached_count] at below
    exact ih bound below fun id unboxed => flags id (unboxed.of_bindings counts.bindings)
  | block opened _ _ _ inside rest =>
    rw [initialsOf] at bound
    rw [reached_block] at below
    obtain ⟨inner, bound⟩ := List.forall_mem_append.mp bound
    obtain ⟨deeper, below⟩ := List.forall_mem_append.mp below
    obtain ⟨_, same, _⟩ := FrameTree.enter_some opened
    refine rest bound below (inside inner deeper fun id unboxed => ?_)
    exact flags id (unboxed.of_bindings same)
  | visit _ begins _ ends _ follows rest =>
    rw [initialsOf] at bound
    rw [reached_visit] at below
    obtain ⟨here, below⟩ := List.forall_mem_cons.mp below
    obtain ⟨deeper, below⟩ := List.forall_mem_append.mp below
    rw [← initialsOf_script] at here
    have followed := follows here deeper fun id unboxed => flags id (begins.effect.unboxed unboxed)
    refine rest bound below fun id unboxed => followed id (unboxed.of_bindings ends.bindings)

/-! ### Every name is bound once -/

/-- The bindings that a node makes in its frames. -/
def Node.made (frame : FrameId) (node : Node Expr) : List BindingId :=
  (node.items frame).filterMap Item.bindingId?

theorem Node.mem_made_of_initials {node : Node Expr} {pair : BindingId × Expr}
    (member : pair ∈ node.initials) (frame : FrameId) : pair.1 ∈ node.made frame := by
  cases node with
  | lets isLoop pairs body inner =>
    simp only [made, items, List.filterMap_cons, Item.bindingId?, List.filterMap_map]
    exact List.mem_filterMap.mpr ⟨pair, member, rfl⟩
  | _ => cases member

theorem Node.mem_made_of_bareNames {node : Node Expr} {id : BindingId} (member : id ∈ node.bareNames)
    (frame : FrameId) : id ∈ node.made frame := by
  cases node with
  | function name uniqueName arities =>
    obtain ⟨arity, held, inside⟩ := List.mem_flatMap.mp member
    refine List.mem_filterMap.mpr ⟨.binding arity.frame id, List.mem_flatMap.mpr ⟨arity, held, ?_⟩, rfl⟩
    exact List.mem_cons_of_mem _ (List.mem_map_of_mem inside)
  | letfns pairs body inner =>
    obtain ⟨pair, held, rfl⟩ := List.mem_map.mp member
    refine List.mem_filterMap.mpr ⟨.binding inner pair.1, ?_, rfl⟩
    exact List.mem_cons_of_mem _ (List.mem_map.mpr ⟨pair, held, rfl⟩)
  | guarded body inner handler cleanup =>
    cases handler with
    | none => cases member
    | some held =>
      cases List.mem_singleton.mp member
      exact List.mem_filterMap.mpr ⟨.binding held.frame held.binding, by simp [items], rfl⟩
  | _ => cases member

/-- Two nodes of a result that make the same binding are the same node. -/
theorem Expr.eq_of_made {expr found other : Expr} {id : BindingId}
    (distinct : ((expr.items FrameTree.rootId).filterMap Item.bindingId?).Nodup)
    (first : found ∈ expr.walk) (second : other ∈ expr.walk)
    (made : ∀ frame, id ∈ found.node.made frame) (made' : ∀ frame, id ∈ other.node.made frame) :
    found = other := by
  rw [items, List.filterMap_flatMap, List.nodup_flatMap] at distinct
  rw [← Pass.map_snd_nodes Node.places_complete FrameTree.rootId] at first second
  obtain ⟨⟨frame, found⟩, listed, rfl⟩ := List.mem_map.mp first
  obtain ⟨⟨frame', other⟩, listed', rfl⟩ := List.mem_map.mp second
  by_contra differs
  have symmetric : Std.Symm (Function.onFun List.Disjoint fun entry : FrameId × Expr =>
      (entry.2.node.items entry.1).filterMap Item.bindingId?) := ⟨fun _ _ => List.Disjoint.symm⟩
  have apart := distinct.2.forall listed listed' fun same => differs (congrArg Prod.snd same)
  exact apart (made frame) (made' frame')

theorem Expr.initializes_once {expr value other : Expr} {id : BindingId}
    (distinct : ((expr.items FrameTree.rootId).filterMap Item.bindingId?).Nodup)
    (given : expr.Initializes id value) (given' : expr.Initializes id other) : value = other := by
  obtain ⟨found, member, among⟩ := given
  obtain ⟨found', member', among'⟩ := given'
  have made := Node.mem_made_of_initials among
  have made' := Node.mem_made_of_initials among'
  cases eq_of_made distinct member member' made made'
  -- Inside one node the names are distinct, too.
  have once : (found.node.initials.map Prod.fst).Nodup := by
    rw [items, List.filterMap_flatMap, List.nodup_flatMap] at distinct
    rw [← Pass.map_snd_nodes Node.places_complete FrameTree.rootId] at member
    obtain ⟨⟨frame, found⟩, listed, rfl⟩ := List.mem_map.mp member
    have here := distinct.1 _ listed
    cases node : found.node with
    | lets isLoop pairs body inner =>
      simp only [node, Node.items, List.filterMap_cons, Item.bindingId?, List.filterMap_map] at here
      rw [← List.filterMap_eq_map]
      exact here
    | _ => exact .nil
  cases List.inj_on_of_nodup_map once among among' rfl
  rfl

/-! ### The result of an analysis -/

/-- A binding that is left unboxed is a name of a `let*` or `loop*`, and nothing else. Its initial value
has an unboxed form, as far back as it is taken over from other names. So have all values that are
stored in it, unless it is for a `recur` that stores something else in it or in a name that it draws
on. -/
theorem Session.analyze_storage {σ : Type} {analyzer : Analyzer σ} {depth : Nat} {form : Form}
    {session : Session σ} {analysis : Analysis}
    (analyzed : ((Session.analyze analyzer depth form).run session).1 = .ok analysis)
    {id : BindingId} {binding : Binding} (held : analysis.tree.binding? id = some binding)
    (unboxed : binding.needsBox = false) :
    binding.capturedFrom = none ∧
    (∃ value, analysis.expr.Initializes id value) ∧
    (∀ found ∈ analysis.expr.walk, id ∉ found.node.bareNames) ∧
    analysis.expr.BeginsUnboxed id ∧
    (analysis.expr.Storable id ↔ ∀ other, Relation.ReflTransGen analysis.expr.Draws id other →
      ∀ value, analysis.expr.Resets other value → value.node.Unboxed analysis.expr.Storable) := by
  obtain ⟨names, run⟩ := Session.analyze_enacts analyzed
  have reaches {found : Expr} (member : found ∈ reached [.visit .operand analysis.expr]) :
      found ∈ analysis.expr.walk := by
    simpa [reached, visited] using member
  have begins : analysis.expr.BeginsUnboxed id := by
    refine run.unboxed (P := analysis.expr.BeginsUnboxed) ?_ ?_ ?_ id ⟨binding, held, unboxed⟩
    · simp [initialsOf]
    · exact fun found member pair among => .intro ⟨found, reaches member, among⟩
    · rintro id ⟨_, held, _⟩
      cases held
  obtain ⟨laid, _⟩ := run.laid Nat.one_pos (.refl _)
  simp only [itemsOf, List.append_nil] at laid
  have distinct := laid.bindings.distinct
  have given : ∃ value, analysis.expr.Initializes id value := by
    obtain ⟨given, _⟩ := begins
    exact ⟨_, given⟩
  refine ⟨?_, given, ?_, begins, ?_⟩
  · cases copied : binding.capturedFrom with
    | none => rfl
    | some source =>
      -- A copy has a boxed use from the beginning, and so a box.
      have usage := Analysis.usage analyzed
      obtain ⟨⟨_, held', boxed⟩, _⟩ := usage.copies id binding source held copied
      cases held.symm.trans held'
      rw [usage.needs id binding held boxed] at unboxed
      cases unboxed
  · intro found member bare
    obtain ⟨value, other, member', among⟩ := given
    have made := Node.mem_made_of_bareNames bare
    have made' := Node.mem_made_of_initials among
    cases Expr.eq_of_made distinct member member' made made'
    cases node : found.node <;> rw [node] at bare among <;> first | cases bare | cases among
  · exact begins.storable_iff fun _ _ _ => Expr.initializes_once distinct

/-- `(loop* [x 1] (recur "a"))`. -/
def careless : Form :=
  let symbol (name : String) : Form := .symbol (.simple name) .synthetic
  .list [symbol "loop*", .vector [symbol "x", .atom (.int 1) .synthetic] .synthetic,
    .list [symbol "recur", .atom (.string "a") .synthetic] .synthetic] .synthetic

/-- `careless` is accepted: the name of its loop is left unboxed, and a `recur` sets it to a string. -/
theorem careless_resets : ∃ (analysis : Analysis) (binding : Binding) (text : Expr)
    (lifted : Option LiftedConstant),
    ((Session.analyze ⟨Namespaces.host, .standard⟩ 3 careless).run (.start (.inside "user"))).1 =
      .ok analysis ∧
    analysis.tree.binding? 0 = some binding ∧ binding.needsBox = false ∧
    analysis.expr.Resets 0 text ∧ text.node = .literal (.atom (.string "a")) lifted := by
  obtain ⟨analysis, binding, initial, jump, text, lifted, analyzed, held, unboxed, loop, jumps, string⟩ :
      ∃ (analysis : Analysis) (binding : Binding) (initial jump text : Expr)
        (lifted : Option LiftedConstant),
        ((Session.analyze ⟨Namespaces.host, .standard⟩ 3 careless).run
          (.start (.inside "user"))).1 = .ok analysis ∧
        analysis.tree.binding? 0 = some binding ∧ binding.needsBox = false ∧
        analysis.expr.node = .lets true [(0, initial)] jump 1 ∧
        jump.node = .recur [text] (.loop 1) ∧
        text.node = .literal (.atom (.string "a")) lifted :=
    ⟨_, _, _, _, _, _, rfl, rfl, rfl, rfl, rfl, rfl⟩
  have child : jump ∈ analysis.expr.children := by
    rw [Expr.children, loop]
    exact List.mem_append_right _ (List.mem_singleton_self _)
  have inside : jump ∈ analysis.expr.walk := Expr.mem_walk_of_child child jump.mem_walk_self
  exact ⟨analysis, binding, text, lifted, analyzed, held, unboxed,
    ⟨_, analysis.expr.mem_walk_self, jump, inside, _, _, _, _, _, 0, loop, jumps, rfl, rfl⟩, string⟩

/-- In `careless` a name begins with a number and is left unboxed, but is given a string later. -/
theorem careless_storage : ∃ analysis binding,
    ((Session.analyze ⟨Namespaces.host, .standard⟩ 3 careless).run (.start (.inside "user"))).1 =
      .ok analysis ∧
    analysis.tree.binding? 0 = some binding ∧ binding.needsBox = false ∧
    analysis.expr.BeginsUnboxed 0 ∧ ¬ analysis.expr.Storable 0 := by
  obtain ⟨analysis, binding, text, lifted, analyzed, held, unboxed, set, string⟩ := careless_resets
  obtain ⟨_, _, _, begins, storable⟩ := Session.analyze_storage analyzed held unboxed
  refine ⟨analysis, binding, analyzed, held, unboxed, begins, fun claimed => ?_⟩
  have stored := storable.mp claimed 0 .refl text set
  rw [string] at stored
  cases stored with
  | literal form => cases form

/-- So a name that is left unboxed need not be storable. -/
theorem careless_notStorable : ¬ ∀ analysis id binding,
    ((Session.analyze ⟨Namespaces.host, .standard⟩ 3 careless).run (.start (.inside "user"))).1 =
      .ok analysis →
    analysis.tree.binding? id = some binding → binding.needsBox = false →
    analysis.expr.Storable id := by
  intro sound
  obtain ⟨analysis, binding, text, lifted, analyzed, held, unboxed, set, string⟩ := careless_resets
  have storable := sound analysis 0 binding analyzed held unboxed
  -- Whatever is stored in a storable name has an unboxed form, and a string has none.
  have stored := (Expr.keepsUnboxed_storable 0 storable).2 text (.inr set)
  rw [string] at stored
  cases stored with
  | literal form => cases form

end LispScope
