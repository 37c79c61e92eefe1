import LispScope.Host.Namespaces
import LispScope.Proofs.Enactment
import LispScope.Proofs.Occurrence
import LispScope.Proofs.Path

/-!
# Tail jumps

Two things decide whether a `recur` is accepted: its position, which is handed down from form to
form, and the first function, loop or `try` among the frames around it. On the resulting tree there
is a single description (`Node.jumps`): a jump leads back to the body of the nearest function or
loop and passes only through expressions whose value is that of the body.
-/
namespace LispScope

/-- Where a `recur` at a node leads and how many arguments that takes; `none` where it may not
stand. -/
abbrev Jump := Option (RecurTarget × Nat)

/-- A function or loop lets its body jump back to it. A jump goes on through the last expression of
a sequence, the branches of an `if` or `case*`, and the body of a `let*` or `letfn*`, and through
nothing else. -/
def Node.jumps (jump : Jump) : Node Expr → List (Jump × Expr)
  | function _ _ arities =>
    arities.map fun arity => (some (.function arity.frame, arity.params.length), arity.body)
  | lets isLoop pairs body frame =>
    pairs.map (fun pair => (none, pair.2)) ++
      [(if isLoop then some (.loop frame, pairs.length) else jump, body)]
  | letfns pairs body _ => pairs.map (fun pair => (none, pair.2)) ++ [(jump, body)]
  | sequence items =>
    items.dropLast.map (none, ·) ++ items.getLast?.toList.map (jump, ·)
  | branch condition yes no => (none, condition) :: (jump, yes) :: no.toList.map (jump, ·)
  | dispatch value _ _ branches fallback =>
    (none, value) :: branches.map (fun entry => (jump, entry.2)) ++ [(jump, fallback)]
  | node => node.children.map (none, ·)

/-- Every child is reached. -/
theorem Node.jumps_complete : Pass.Complete Node.jumps := by
  intro jump node
  cases node with
  | sequence items =>
    obtain rfl | ⟨items, last, rfl⟩ := List.eq_nil_or_concat items
    · rfl
    · simp [jumps, children, Function.comp_def]
  | _ => simp [jumps, children, Function.comp_def]

/-- The bodies that can jump back to the node. -/
def Node.targets : Node ε → List ((RecurTarget × Nat) × ε)
  | function _ _ arities =>
    arities.map fun arity => ((.function arity.frame, arity.params.length), arity.body)
  | lets true pairs body frame => [((.loop frame, pairs.length), body)]
  | _ => []

/-- The children through which a jump goes on. -/
def Node.tails : Node ε → List ε
  | sequence items => items.getLast?.toList
  | branch _ yes no => yes :: no.toList
  | lets false _ body _ | letfns _ body _ => [body]
  | dispatch _ _ _ branches fallback => branches.map Prod.snd ++ [fallback]
  | _ => []

/-- The way from an expression down to another one, through such children only. -/
inductive TailPath : Expr → Expr → Prop
  | here : TailPath expr expr
  | there (step : child ∈ expr.node.tails) (path : TailPath child found) : TailPath expr found

theorem Node.mem_jumps {jump inner : Jump} {node : Node Expr} {child : Expr}
    (member : (inner, child) ∈ node.jumps jump) :
    inner = none ∨ (∃ aim, inner = some aim ∧ (aim, child) ∈ node.targets) ∨
      (inner = jump ∧ child ∈ node.tails) := by
  cases node with
  | lets isLoop pairs body frame => cases isLoop <;> grind [jumps, targets, tails]
  | function | letfns | sequence | branch | dispatch => grind [jumps, targets, tails]
  | _ =>
    obtain ⟨_, _, same⟩ := List.mem_map.mp member
    exact .inl (Prod.mk.inj same).1.symm

/-- A jump that is handed down to a node comes from a body around it, and from that body only tail
positions lead to the node. -/
theorem Below.tailPath {jump inner : Jump} {expr found : Expr} {aim : RecurTarget × Nat}
    (below : Below Node.jumps jump expr inner found) (aimed : inner = some aim) :
    (jump = some aim ∧ TailPath expr found) ∨ ∃ owner ∈ expr.walk, ∃ body,
      (aim, body) ∈ owner.node.targets ∧ TailPath body found := by
  induction below with
  | here => exact .inl ⟨aimed, .here⟩
  | there step below ih =>
    have child := Node.jumps_complete.child step
    obtain ⟨aims, path⟩ | ⟨owner, member, body, target, path⟩ := ih aimed
    -- The jump was set by this node, or it came from further up through a tail position.
    · obtain none | ⟨other, aims', target⟩ | ⟨same, tail⟩ := Node.mem_jumps step
      · simp [none] at aims
      · cases aims.symm.trans aims'
        exact .inr ⟨_, Expr.mem_walk_self _, _, target, path⟩
      · exact .inl ⟨same ▸ aims, .there tail path⟩
    · exact .inr ⟨owner, Expr.mem_walk_of_child child member, body, target, path⟩

/-- A frame that is opened sets the target of jumps, hands it on, or bars it. That of a loop bars it
until the names are counted. -/
def jumpInto (jump : Jump) : Opening → Option FrameId → Jump
  | .function context, some frame => some (.function frame, context.paramCount)
  | .lets, _ | .letfns, _ => jump
  | _, _ => none

/-- Jumps along scripts: a target can be used in tail position only. -/
def jumpTraversal : Traversal Jump Jump where
  bind jump _ := jump
  count _ frame arity := some (.loop frame, arity)
  enter := jumpInto
  view jump place := if place.position = .tail then jump else none
  pass := Node.jumps

namespace jumpTraversal

@[simp] theorem view_operandAs (jump : Jump) (boxed : Bool) :
    jumpTraversal.view jump (.operandAs boxed) = none := rfl

@[simp] theorem view_operand (jump : Jump) : jumpTraversal.view jump .operand = none := rfl

@[simp] theorem view_statement (jump : Jump) : jumpTraversal.view jump .statement = none := rfl

@[simp] theorem view_functionBody (jump : Jump) :
    jumpTraversal.view jump .functionBody = jump := rfl

@[simp] theorem bind_eq (jump : Jump) (binding : BindingId) :
    jumpTraversal.bind jump binding = jump := rfl

@[simp] theorem foldl_bind (jump : Jump) (bindings : List BindingId) :
    bindings.foldl jumpTraversal.bind jump = jump := by
  induction bindings with
  | nil => rfl
  | cons _ _ ih => exact ih

theorem views_pairs (jump : Jump) (isLoop : Bool) (pairs : List (BindingId × Expr)) :
    jumpTraversal.views jump (pairScript isLoop pairs) = pairs.map fun pair => (none, pair.2) := by
  induction pairs with
  | nil => simp [pairScript]
  | cons pair pairs ih => exact (Traversal.views_pairs_cons ..).trans (congrArg _ ih)

theorem views_arity (jump : Jump) (name : Option Symbol) (uniqueName : String)
    (arity : Arity Expr) (steps : List Step) :
    jumpTraversal.views jump (arity.block name uniqueName :: steps) =
      (some (.function arity.frame, arity.params.length), arity.body) ::
        jumpTraversal.views jump steps := by
  simp only [Arity.block, Traversal.views_block, Traversal.views_append, Traversal.views_map_bind,
    Traversal.finish_map_bind, foldl_bind, Traversal.views_visit, Traversal.views_nil,
    view_functionBody]
  rfl

theorem views_lets (jump : Jump) (opening : Opening) (isLoop : Bool) (frame : FrameId)
    (pairs : List (BindingId × Expr)) (place : Place) (body : Expr) :
    jumpTraversal.views jump
        [.block opening (some frame)
          (pairScript isLoop pairs ++ countScript isLoop frame pairs.length ++ [.visit place body])] =
      pairs.map (fun pair => (none, pair.2)) ++
        [(jumpTraversal.view (if isLoop then some (.loop frame, pairs.length)
          else jumpInto jump opening (some frame)) place, body)] := by
  have counted (jump : Jump) : jumpTraversal.finish jump (countScript isLoop frame pairs.length) =
      if isLoop then some (.loop frame, pairs.length) else jump := by
    cases isLoop <;> rfl
  simp only [Traversal.views_block, Traversal.views_append, views_pairs, Traversal.finish_append,
    Traversal.finish_pairs, foldl_bind, counted, Traversal.views_countScript, Traversal.views_visit,
    Traversal.views_nil, List.append_nil]
  rfl

theorem lawful : jumpTraversal.Lawful := by
  intro jump place node
  have passed : jumpTraversal.pass = Node.jumps := rfl
  have entered : jumpTraversal.enter = jumpInto := rfl
  -- Nothing inside a `try` sees a target.
  have barred (place : Place) : jumpTraversal.view none place = none := ite_self none
  cases node with
  | function name uniqueName arities =>
    induction arities with
    | nil => simp [Node.script, Node.jumps, passed]
    | cons arity arities ih => exact (views_arity ..).trans (congrArg _ ih)
  | sequence items => simp [Node.script, Traversal.views_sequence, Node.jumps, passed]
  | lets isLoop pairs body frame => cases isLoop <;> exact views_lets ..
  | recur args target => cases target <;> simp [Node.script, Node.jumps, passed, Node.children]
  | guarded body frame handler cleanup =>
    cases handler <;> cases cleanup <;>
      simp [Node.script, Handler.block, Node.jumps, passed, entered, jumpInto, Node.children, barred]
  | _ =>
    simp [Node.script, Traversal.views_append, Node.jumps, passed, entered, jumpInto, Node.children]

end jumpTraversal

/-! ### The frames around a jump -/

/-- Where a jump leads from a frame, when it is known where it leads from the frame around. -/
def Frame.aim (id : FrameId) (frame : Frame) (jump : Jump) : Jump :=
  match frame.kind with
  | .function => frame.function?.map fun context => (.function id, context.paramCount)
  | .loop => frame.loopArity?.map fun arity => (.loop id, arity)
  | .lets | .letfns => jump
  | _ => none

/-- Where a jump leads from the first of some frames, and how many arguments that takes. -/
def FrameTree.aim (tree : FrameTree) : List FrameId → Jump
  | [] => none
  | id :: outer => (tree.frame? id).bind fun frame => frame.aim id (tree.aim outer)

/-- A frame that grows keeps its jumps if its names are not counted. -/
theorem Frame.Grows.aim {before after : Frame} (grows : before.Grows after)
    (arity : after.loopArity? = before.loopArity?) (id : FrameId) (jump : Jump) :
    after.aim id jump = before.aim id jump := by
  have reads (frame : Frame) :
      (frame.function?.map fun context => (RecurTarget.function id, context.paramCount)) =
        frame.outline?.map fun context => (RecurTarget.function id, context.paramCount) := by
    cases known : frame.function? <;> simp [Frame.outline?, known, FnContext.outline]
  simp only [Frame.aim, grows.kind, arity, reads, grows.outline]

namespace FrameTree

variable {tree before after : FrameTree} {id : FrameId} {ids : List FrameId}

/-- No names are counted in the frames that there are. -/
def KeepsArities (before after : FrameTree) : Prop :=
  ∀ id frame, before.frame? id = some frame →
    ∃ kept, after.frame? id = some kept ∧ kept.loopArity? = frame.loopArity?

theorem KeepsArities.of_keepsNames (keeps : ∀ id < before.frames.size, KeepsNames id before after) :
    before.KeepsArities after := by
  intro id frame held
  obtain ⟨kept, held', _, arity⟩ := keeps id (frame?_lt held) frame held
  exact ⟨kept, held', arity⟩

theorem KeepsArities.bind {frame : FrameId} {name : Symbol} {initial : Option Expr}
    {needsBox : Bool} {binding : BindingId}
    (bound : tree.bind frame name initial needsBox = some (binding, after)) :
    tree.KeepsArities after := by
  obtain ⟨_, _, _, ⟨held, found, changed⟩, others⟩ := bind_some bound
  intro id present exists_
  by_cases same : id = frame
  · subst same
    cases found.symm.trans exists_
    exact ⟨_, changed, rfl⟩
  · exact ⟨present, (others id same).trans exists_, rfl⟩

/-- Inside of a block another frame is counted at most. -/
theorem KeepsArities.block {config : Config} {opening : Opening} {frame inner : FrameId}
    {script : List LispScope.Step} {before between : Store} {tree : FrameTree}
    (opened : before.tree.enter opening frame = (inner, tree))
    (inside : Enacts config inner script { before with tree } between) :
    before.tree.KeepsArities between.tree := by
  have ⟨grows, keeps⟩ := enter_grows opened
  refine .of_keepsNames fun id old => (keeps id old).trans ?_
  have elsewhere := Nat.ne_of_lt ((enter_some opened).1 ▸ old)
  exact inside.keepsNames (Nat.lt_of_lt_of_le old grows.size) fun same => absurd same elsewhere

/-- The frames on a path keep their jumps while the tree grows and their names are not counted. -/
theorem Path.aim_grows (grows : before.Grows after) (keeps : before.KeepsArities after)
    (path : before.Path id ids) : after.aim ids = before.aim ids := by
  have same {other : FrameId} {frame : Frame} (held : before.frame? other = some frame) :
      ∃ grown, after.frame? other = some grown ∧ ∀ jump,
        grown.aim other jump = frame.aim other jump := by
    obtain ⟨grown, held', grows⟩ := grows.frames _ _ held
    obtain ⟨kept, found, arity⟩ := keeps _ _ held
    cases held'.symm.trans found
    exact ⟨_, held', grows.aim arity other⟩
  induction path with
  | root held top =>
    obtain ⟨grown, held', same⟩ := same held
    simp [aim, held, held', same]
  | step held inside path ih =>
    obtain ⟨grown, held', same⟩ := same held
    simp [aim, held, held', same, ih]

/-- The search for the target of a `recur` goes along the path. -/
theorem aim_of_recurTarget {lineage : Lineage} {target : RecurTarget} {count : Nat}
    (frames : ∀ entry ∈ lineage, tree.frame? entry.1 = some entry.2)
    (aimed : recurTarget lineage = .ok (target, count)) :
    tree.aim (lineage.map Prod.fst) = some (target, count) := by
  induction lineage with
  | nil => cases aimed
  | cons entry lineage ih =>
    obtain ⟨other, frame⟩ := entry
    have held := frames _ (List.mem_cons_self ..)
    have outside := ih fun entry member => frames entry (List.mem_cons_of_mem _ member)
    rw [recurTarget] at aimed
    rw [List.map_cons, aim, held, Option.bind_some, Frame.aim]
    cases opened : frame.kind <;> simp only [opened] at aimed ⊢
    -- A function or loop is the target, and other frames either let a jump through or bar it.
    case function =>
      cases known : frame.function? <;> rw [known] at aimed <;> cases aimed
      rfl
    case loop =>
      cases known : frame.loopArity? <;> rw [known] at aimed <;> cases aimed
      rfl
    case lets | letfns => exact outside aimed
    all_goals cases aimed

end FrameTree

/-- The jumps of the moment are those of the path of the current frame. -/
def Aims (jump : Jump) (frame : FrameId) (store : Store) : Prop :=
  ∃ ids, store.tree.Path frame ids ∧ jump = store.tree.aim ids

theorem Aims.grows {jump : Jump} {frame : FrameId} {before after : Store}
    (aims : Aims jump frame before) (grows : before.tree.Grows after.tree)
    (keeps : before.tree.KeepsArities after.tree) : Aims jump frame after := by
  obtain ⟨ids, path, same⟩ := aims
  exact ⟨ids, path.grows grows, same.trans (path.aim_grows grows keeps).symm⟩

theorem aims_carried (config : Config) (final : FrameTree) :
    jumpTraversal.Carries config final (fun _ _ => True) Aims where
  lawful := jumpTraversal.lawful
  handsDown _ _ := trivial
  bind {jump frame binding how tree before} aims binds _ := by
    obtain ⟨_, _, _, _, bound⟩ := binds.bound
    exact aims.grows binds.grows.1 (.bind bound)
  count {jump frame arity tree before} aims counts := by
    obtain ⟨ids, path, _⟩ := aims
    obtain ⟨held, _, kind, _, _, _, changed, _⟩ := counts.counted
    obtain ⟨outer, rfl⟩ := path.head
    refine ⟨_, path.grows counts.grows.1, ?_⟩
    simp [FrameTree.aim, changed, Frame.aim, Frame.fillLoop, kind, jumpTraversal]
  enter {jump frame opening known inner tree before} aims opened recorded := by
    obtain ⟨ids, path, rfl⟩ := aims
    have ⟨grows, keeps⟩ := FrameTree.enter_grows opened
    obtain ⟨_, _, _, held, _⟩ := FrameTree.enter_some opened
    refine ⟨inner :: ids, path.opened opened, ?_⟩
    -- The number of the frame is recorded wherever it can be a target.
    simp only [FrameTree.aim, held, Option.bind_some, path.aim_grows grows (.of_keepsNames keeps)]
    cases opening with
    | function context =>
      obtain ⟨rfl, _⟩ := recorded
      rfl
    | _ => rfl
  leave aims opened inside _ :=
    aims.grows ((FrameTree.enter_grows opened).1.trans inside.grows) (.block opened inside)
  begins aims _ _ begins :=
    aims.grows begins.effect.grows.1 (.of_keepsNames fun id _ => begins.effect.grows.2 id)
  ends aims ends := aims.grows ends.grows.1 (.of_keepsNames fun id _ => ends.grows.2 id)

/-! ### Notes on functions -/

/-- How a function is come back to: by a jump or by a call of its own name. -/
inductive Loopback
  | jump
  | call

namespace Loopback

/-- Where it is noted. -/
def flag : Loopback → FnContext → Bool
  | jump => FnContext.isTailRecursive
  | call => FnContext.isNamedRecursive

/-- The frame of the function that a node comes back to. -/
def target? : Loopback → Node Expr → Option FrameId
  | jump => Node.jumped?
  | call => Node.called?

end Loopback

namespace FrameTree

/-- What a frame knows about its function. -/
def context? (tree : FrameTree) (id : FrameId) : Option FnContext :=
  (tree.frame? id).bind Frame.function?

/-- It is noted that the function of a frame is come back to. -/
def Noted (tree : FrameTree) (way : Loopback) (id : FrameId) : Prop :=
  ∃ context, tree.context? id = some context ∧ way.flag context = true

variable {tree before after : FrameTree} {id : FrameId} {way : Loopback}

/-- Filling adds nothing to what is known about functions. -/
theorem Fills.context? (fills : before.Fills after) (id : FrameId) :
    after.context? id = before.context? id := by
  cases held : before.frame? id with
  | some frame =>
    obtain ⟨filled, held', fills⟩ := fills.frames id frame held
    simp [FrameTree.context?, held, held', fills.function?]
  | none =>
    have absent : after.frame? id = none := by
      simp only [frame?, Array.getElem?_eq_none_iff, fills.size] at held ⊢
      exact held
    simp [FrameTree.context?, held, absent]

theorem bind_context? {frame : FrameId} {name : Symbol} {initial : Option Expr} {needsBox : Bool}
    {binding : BindingId} (bound : tree.bind frame name initial needsBox = some (binding, after))
    (id : FrameId) : after.context? id = tree.context? id := by
  obtain ⟨_, _, _, ⟨held, found, changed⟩, others⟩ := bind_some bound
  by_cases same : id = frame
  · subst same
    simp [context?, found, changed]
  · simp [context?, others id same]

theorem counts_context? {frame : FrameId} {arity : Nat} (counts : Counts frame arity tree after)
    (id : FrameId) : after.context? id = tree.context? id := by
  obtain ⟨held, found, _, _, _, _, changed, others⟩ := counts.counted
  by_cases same : id = frame
  · subst same
    simp [context?, found, changed, Frame.fillLoop]
  · simp [context?, others id same]

/-- A frame that is opened has no notes. -/
theorem enter_noted {opening : Opening} {parent inner : FrameId} {known : Option FrameId}
    (opened : tree.enter opening parent = (inner, after)) (recorded : opening.Records inner known) :
    after.Noted way id ↔ tree.Noted way id := by
  obtain ⟨next, _, _, held, others⟩ := enter_some opened
  by_cases same : id = inner
  · subst same
    -- The frame is new, so there was nothing to note about it before.
    have absent : tree.frame? id = none := by
      simp [frame?, next]
    have unmarked (context : FnContext) (function : opening = .function context) :
        way.flag context = false := by
      subst function
      obtain ⟨_, notJumped, notCalled⟩ := recorded
      cases way <;> assumption
    cases opening <;> simp_all [Noted, context?, Opening.function?]
  · simp [Noted, context?, others id same]

/-- Updating a function changes what its own frame knows. -/
theorem updateFunction_context? {change : FnContext → FnContext} {target : FrameId}
    (updated : tree.updateFrame target (Frame.updateFunction change) = some after) (id : FrameId) :
    after.context? id =
      if id = target then (tree.context? id).map change else tree.context? id := by
  obtain ⟨held, found, _, _, changed, others⟩ := updateFrame_some updated
  split
  next same =>
    subst same
    simp [context?, found, changed, Frame.updateFunction]
  next differs => simp [context?, others id differs]

/-- The frame of a function stays one. -/
theorem Grows.context_isSome (grows : before.Grows after) (function : (before.context? id).isSome) :
    (after.context? id).isSome := by
  obtain ⟨context, known⟩ := Option.isSome_iff_exists.mp function
  simp only [context?, Option.bind_eq_some_iff] at known
  obtain ⟨frame, held, known⟩ := known
  obtain ⟨grown, held', grows⟩ := grows.frames id frame held
  have outline := congrArg Option.isSome grows.outline
  simpa [context?, held', Frame.outline?, known] using outline

/-- What refers to an enclosing function refers to the frame of one. -/
theorem Refers.context_isSome {name : Symbol} {target : FrameId} {crossed : List FrameId}
    (refers : tree.Refers id name ⟨.self target, crossed⟩) : (tree.context? target).isSome := by
  obtain ⟨lineage, climbed, resolved⟩ := refers
  have path := (lineage_some climbed).1
  obtain ⟨_, _, at_, _, _, _, answers, _⟩ := Refers.split ⟨lineage, climbed, resolved⟩ path
  obtain ⟨rfl, frame, context, held, known, _⟩ := self?_some (answer?_self.mp answers).2.2
  simp [context?, held, known]

theorem updateFunction_noted {change : FnContext → FnContext} {target : FrameId}
    (updated : tree.updateFrame target (Frame.updateFunction change) = some after)
    (function : (tree.context? target).isSome) (sets : Prop)
    (changes : ∀ context, way.flag (change context) = true ↔ way.flag context = true ∨ sets) :
    after.Noted way id ↔ tree.Noted way id ∨ (id = target ∧ sets) := by
  obtain ⟨context, known⟩ := Option.isSome_iff_exists.mp function
  rw [Noted, Noted, updateFunction_context? updated]
  by_cases same : id = target
  · subst same
    simp [known, changes]
  · simp [same]

end FrameTree

/-- A `recur` to a function refers to the frame of one. -/
theorem recurTarget_context {tree : FrameTree} {lineage : Lineage} {target : FrameId} {count : Nat}
    (frames : ∀ entry ∈ lineage, tree.frame? entry.1 = some entry.2)
    (aimed : recurTarget lineage = .ok (.function target, count)) :
    (tree.context? target).isSome := by
  induction lineage with
  | nil => cases aimed
  | cons entry lineage ih =>
    obtain ⟨other, frame⟩ := entry
    have held := frames _ (List.mem_cons_self ..)
    rw [recurTarget] at aimed
    cases opened : frame.kind <;> simp only [opened] at aimed
    case function =>
      cases known : frame.function? <;> rw [known] at aimed <;> cases aimed
      simp [FrameTree.context?, held, known]
    case loop => cases known : frame.loopArity? <;> rw [known] at aimed <;> cases aimed
    case lets | letfns =>
      exact ih (fun entry member => frames entry (List.mem_cons_of_mem _ member)) aimed
    all_goals cases aimed

theorem Node.jumped?_eq_some {node : Node ε} {target : FrameId} :
    node.jumped? = some target ↔ ∃ args, node = .recur args (.function target) := by
  cases node with
  | recur args aim => cases aim <;> simp [jumped?]
  | _ => simp [jumped?]

theorem Node.called?_eq_some {node : Node ε} {target : FrameId} :
    node.called? = some target ↔ ∃ args crossed, node = .selfCall target args crossed := by
  cases node <;> simp [called?]

theorem Begins.jumped {frame target : FrameId} {node : Node Expr} {before after : Store}
    (begins : Begins frame node before after) (jumped : node.jumped? = some target) :
    (before.tree.context? target).isSome := by
  cases begins with
  | recur path aimed =>
    cases ‹RecurTarget› <;> cases jumped
    exact recurTarget_context (FrameTree.lineage_some path).2 aimed
  | var looked => cases node <;> simp_all [Node.var?, Node.jumped?]
  | idle idle => cases node <;> simp_all [Node.isIdle, Node.jumped?]
  | _ => cases jumped

/-- Before its script a node notes that it calls the function it stands in. -/
theorem Effect.noted {frame id : FrameId} {node : Node Expr} {before after : FrameTree}
    {way : Loopback} (effect : Effect frame node before after) :
    after.Noted way id ↔ before.Noted way id ∨ (way = .call ∧ node.called? = some id) := by
  have kept {before after : FrameTree} (fills : before.Fills after) :
      after.Noted way id ↔ before.Noted way id := by
    rw [FrameTree.Noted, FrameTree.Noted, fills.context?]
  have notCalled (notSelf : node.recursesTo? = none) : node.called? = none := by
    cases node <;> simp_all [Node.recursesTo?, Node.called?]
  cases effect with
  | lifts _ notSelf lifts => simp [kept lifts.fills, notCalled notSelf]
  | uses _ notSelf _ captured noted =>
    have fills := FrameTree.use_fills captured noted
    simp [kept fills, notCalled notSelf]
  | recurs _ _ refers taken marked =>
    have fills := FrameTree.captureSelf_fills taken
    obtain ⟨called, rfl⟩ | ⟨called, updated⟩ := marked
    · simp [kept fills, called]
    -- A call also marks its function, which is still one after copies have been taken along.
    · have function := fills.grows.context_isSome refers.context_isSome
      rw [FrameTree.updateFunction_noted updated function (way = .call), kept fills]
      · simp [called, and_comm, eq_comm]
      · cases way <;> simp [Loopback.flag, FnContext.markNamed]

/-- After its script a node notes that it jumps back. -/
theorem Ends.noted {id : FrameId} {node : Node Expr} {before after : Store} {way : Loopback}
    (ends : Ends node before after)
    (function : ∀ target, node.jumped? = some target → (before.tree.context? target).isSome) :
    after.tree.Noted way id ↔
      before.tree.Noted way id ∨ (way = .jump ∧ node.jumped? = some id) := by
  cases ends with
  | jump jumped marked =>
    rw [FrameTree.updateFunction_noted marked (function _ jumped) (way = .jump)]
    · simp [jumped, and_comm, eq_comm]
    · cases way <;> simp [Loopback.flag, FnContext.markTail]
  | idle stays => simp [stays]

/-- A run notes exactly the jumps and calls that its script reaches. -/
theorem Enacts.noted_iff {config : Config} {frame : FrameId} {steps : List Step}
    {before after : Store} (run : Enacts config frame steps before after) (way : Loopback)
    (id : FrameId) :
    after.tree.Noted way id ↔
      before.tree.Noted way id ∨ ∃ expr ∈ reached steps, way.target? expr.node = some id := by
  induction run with
  | done => simp
  | bind binds _ ih =>
    obtain ⟨_, _, _, _, bound⟩ := binds.bound
    rw [ih, reached_bind]
    simp [FrameTree.Noted, FrameTree.bind_context? bound]
  | count counts _ ih =>
    rw [ih, reached_count]
    simp [FrameTree.Noted, FrameTree.counts_context? counts]
  | block opened recorded _ _ inside rest =>
    rw [rest, inside, FrameTree.enter_noted opened recorded, reached_block]
    simp [or_and_right, exists_or, or_assoc]
  | visit _ begins within ends _ follows rest =>
    -- Where a node jumps back to is settled when it begins, and noted when it ends.
    have function (target : FrameId) (jumped : _ = some target) :=
      (begins.effect.grows.1.trans within.grows).context_isSome (begins.jumped jumped)
    rw [rest, ends.noted function, follows, begins.effect.noted, reached_visit]
    cases way <;> simp [Loopback.target?, or_and_right, exists_or, or_assoc, or_left_comm]

/-! ### All jumps of a result -/

/-- Where a `recur` leads, for every one that a result holds. -/
theorem Begins.recur_aimed {jump : Jump} {frame : FrameId} {args : List Expr}
    {target : RecurTarget} {before after : Store} (aims : Aims jump frame before)
    (begins : Begins frame (.recur args target) before after) :
    jump = some (target, args.length) := by
  obtain ⟨ids, path, rfl⟩ := aims
  cases begins with
  | recur climbed aimed =>
    obtain ⟨path', frames⟩ := FrameTree.lineage_some climbed
    rw [path.unique path']
    exact FrameTree.aim_of_recurTarget frames aimed
  | var looked => cases looked
  | idle idle => cases idle

/-- The root has no frame around it and nowhere to jump. -/
theorem aims_initial (names : NameSupply) : Aims none FrameTree.rootId ⟨.initial, names⟩ :=
  ⟨[FrameTree.rootId], .root rfl rfl, rfl⟩

/-- Jumps are handed down to every node of a result, and every `recur` in it is a tail jump: it
stands in tail position, it leads to the nearest function or loop around it through tail positions
only, and it has as many arguments as that has names. A function knows exactly whether some `recur`
jumps back to it and whether some call in it uses its own name. -/
theorem Session.analyze_tailJumps {σ : Type} {analyzer : Analyzer σ} {depth : Nat} {form : Form}
    {session : Session σ} {analysis : Analysis}
    (analyzed : ((Session.analyze analyzer depth form).run session).1 = .ok analysis) :
    (∀ expr ∈ analysis.expr.walk, ∃ jump, Below Node.jumps none analysis.expr jump expr) ∧
    (∀ jump expr args target, Below Node.jumps none analysis.expr jump expr →
      expr.node = .recur args target →
      expr.position = .tail ∧ jump = some (target, args.length) ∧
        ∃ owner ∈ analysis.expr.walk, ∃ body,
          ((target, args.length), body) ∈ owner.node.targets ∧ TailPath body expr) ∧
    (∀ id frame context, analysis.tree.frame? id = some frame →
      frame.function? = some context →
      (context.isTailRecursive = true ↔
        ∃ expr ∈ analysis.expr.walk, ∃ args, expr.node = .recur args (.function id)) ∧
      (context.isNamedRecursive = true ↔
        ∃ expr ∈ analysis.expr.walk, ∃ args crossed, expr.node = .selfCall id args crossed)) := by
  obtain ⟨names, run⟩ := Session.analyze_enacts analyzed
  refine ⟨fun expr member => Below.exists_of_mem_walk Node.jumps_complete none member, ?_, ?_⟩
  · intro jump expr args target below recur
    -- At the moment at which a `recur` was visited, the path of its frame led to the target.
    have aims := aims_initial session.names
    obtain ⟨observed, _⟩ := Observed.of_enacts (aims_carried analyzer.config analysis.tree) run
      (.refl _) (fun _ _ => trivial) aims
    have root : (none, analysis.expr) ∈ jumpTraversal.views none [.visit .operand analysis.expr] := by
      simp
    obtain ⟨around, place, frame, earlier, begun, seen, fits, holds, begins, _⟩ :=
      observed.moment jumpTraversal.lawful root below
    rw [recur] at begins
    have aimed := Begins.recur_aimed holds begins
    -- A `recur` records that its place is a tail position, where the target can be seen.
    obtain ⟨position, tail⟩ := fits
    rw [recur] at tail
    have sees : jump = some (target, args.length) := by
      rw [seen, aimed]
      exact if_pos tail
    refine ⟨position.trans tail, sees, ?_⟩
    obtain ⟨no, _⟩ | found := below.tailPath sees
    · cases no
    · exact found
  · intro id frame context held known
    have walked : reached [.visit .operand analysis.expr] = analysis.expr.walk := by
      simp [reached, visited]
    have noted (way : Loopback) : way.flag context = true ↔
        ∃ expr ∈ analysis.expr.walk, way.target? expr.node = some id := by
      -- Nothing is noted at the start, so all notes come from the run.
      have start : ¬ FrameTree.Noted .initial way id := by
        rintro ⟨context, known, _⟩
        cases id <;> cases known
      have finish : analysis.tree.Noted way id ↔ way.flag context = true := by
        simp [FrameTree.Noted, FrameTree.context?, held, known]
      rw [← finish, run.noted_iff way id, walked]
      exact or_iff_right start
    refine ⟨(noted .jump).trans ?_, (noted .call).trans ?_⟩
    · simp only [Loopback.target?, Node.jumped?_eq_some]
    · simp only [Loopback.target?, Node.called?_eq_some]

/-- `(fn* [] (recur))`. -/
def endless : Form :=
  .list [.symbol (.simple "fn*") .synthetic, .vector [] .synthetic,
    .list [.symbol (.simple "recur") .synthetic] .synthetic] .synthetic

/-- The function of `endless` knows of the jump, so there is one. -/
theorem endless_tailJumps : ∃ analysis,
    ((Session.analyze ⟨Namespaces.host, .standard⟩ 3 endless).run (.start (.inside "user"))).1 =
      .ok analysis ∧
    ∃ expr ∈ analysis.expr.walk, ∃ args, expr.node = .recur args (.function 1) := by
  have noted : (((Session.analyze ⟨Namespaces.host, .standard⟩ 3 endless).run
      (.start (.inside "user"))).1.toOption.bind fun analysis =>
        (analysis.tree.frame? 1).bind Frame.function?).map FnContext.isTailRecursive =
      some true := by rfl
  simp only [Option.map_eq_some_iff, Option.bind_eq_some_iff] at noted
  obtain ⟨context, ⟨analysis, found, frame, held, known⟩, jumped⟩ := noted
  have analyzed := ok_of_toOption found
  refine ⟨analysis, analyzed, ?_⟩
  exact ((Session.analyze_tailJumps analyzed).2.2 1 frame context held known).1.mp jumped

end LispScope
