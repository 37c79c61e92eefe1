import LispScope.Proofs.Marking
import LispScope.Proofs.Soundness

/-!
# No step of an analysis fails

A tree is *valid* if it is sound and settled. On a valid tree, every operation that an analysis asks
for succeeds and leaves a valid tree: a frame in range has a lineage, what a name was resolved to can
be used, and every function that is crossed on the way can take a copy.

A form in tail position stands in a *tail scope*: out of `let*` and `letfn*` one comes to a function
that is known, to a loop whose names are counted, or to a `try` or its handler, and never to the root or
to a `finally`. So whatever a `recur` is refused for there, it is neither that nothing encloses it nor
that something has not been filled in.
-/
namespace LispScope

namespace FrameTree

/-- A tree on which no operation of an analysis fails. -/
structure Valid (tree : FrameTree) : Prop where
  sound : tree.Sound
  settled : tree.Settled

variable {tree after : FrameTree} {id : FrameId}

theorem valid_initial : FrameTree.initial.Valid := ⟨sound_initial, settled_initial⟩

theorem frame?_of_lt (inRange : id < tree.frames.size) : ∃ frame, tree.frame? id = some frame :=
  ⟨_, Array.getElem?_eq_getElem inRange⟩

theorem Valid.exists_path (valid : tree.Valid) (inRange : id < tree.frames.size) :
    ∃ ids, tree.Path id ids := by
  obtain ⟨frame, held⟩ := frame?_of_lt inRange
  exact Path.exists_of_frame valid.sound.ordered held

theorem Valid.exists_lineage (valid : tree.Valid) (inRange : id < tree.frames.size) :
    ∃ lineage, tree.lineage id = some lineage := by
  obtain ⟨ids, path⟩ := valid.exists_path inRange
  exact lineage_of_path valid.sound.ordered path

/-- The frames of a path are frames of the tree. -/
theorem Path.lt_of_mem {ids : List FrameId} (path : tree.Path id ids) {other : FrameId}
    (member : other ∈ ids) : other < tree.frames.size := by
  obtain ⟨inner, outer, rfl⟩ := List.append_of_mem member
  obtain ⟨frame, held⟩ := path.suffix.frame
  exact frame?_lt held

/-- Some frame on the path of a frame takes what its code lifts. -/
theorem Valid.exists_closestFunction (valid : tree.Valid) (inRange : id < tree.frames.size) :
    ∃ target, tree.closestFunction id = some target ∧ target < tree.frames.size := by
  obtain ⟨lineage, climbed⟩ := valid.exists_lineage inRange
  obtain ⟨path, _⟩ := lineage_some climbed
  have nearest (lineage : Lineage) (inhabited : lineage ≠ []) :
      ∃ target ∈ lineage.map Prod.fst, lineage.closestFunction = some target := by
    induction lineage using Lineage.closestFunction.induct with
    | case1 => exact absurd rfl inhabited
    | case2 only frame => exact ⟨only, by simp, rfl⟩
    | case3 first frame outer more function =>
      exact ⟨first, by simp, by rw [Lineage.closestFunction, if_pos function]; exact more⟩
    | case4 first frame outer more other ih =>
      obtain ⟨target, member, found⟩ := ih fun empty => more empty
      refine ⟨target, List.mem_cons_of_mem _ member, ?_⟩
      rw [Lineage.closestFunction, if_neg other]
      · exact found
      · exact more
  obtain ⟨outer, along⟩ := path.head
  obtain ⟨target, member, found⟩ := nearest lineage (by rintro rfl; cases along)
  exact ⟨target, by simp [closestFunction, climbed, found], path.lt_of_mem member⟩

/-- Bindings in range stay so. -/
theorem Grows.bindings_lt (grows : tree.Grows after) {binding : BindingId}
    (inRange : binding < tree.bindings.size) : binding < after.bindings.size := by
  obtain ⟨kept, held, _⟩ := grows.bindings binding _ (Array.getElem?_eq_getElem inRange)
  exact binding?_lt held

theorem Grows.bindings_size (grows : tree.Grows after) : tree.bindings.size ≤ after.bindings.size :=
  Nat.not_lt.mp fun fewer => Nat.lt_irrefl _ (grows.bindings_lt fewer)

theorem exists_updateFrame (inRange : id < tree.frames.size) (change : Frame → Frame) :
    ∃ after, tree.updateFrame id change = some after := by
  rw [updateFrame, if_pos inRange]
  exact ⟨_, rfl⟩

/-! ### Opening, binding and noting -/

theorem Valid.enter {opening : Opening} {parent inner : FrameId} (valid : tree.Valid)
    (inRange : parent < tree.frames.size) (opened : tree.enter opening parent = (inner, after)) :
    after.Valid := by
  obtain ⟨ids, path⟩ := valid.exists_path inRange
  exact ⟨valid.sound.enter path opened, valid.settled.of_bindings (enter_some opened).2.1⟩

/-- The locals that an expression may evaluate to are bindings of the tree. -/
def Covers (tree : FrameTree) (expr : Expr) : Prop :=
  ∀ binding ∈ expr.resultLocals, binding < tree.bindings.size

theorem Valid.exists_bind {initial : Option Expr} (valid : tree.Valid)
    (inRange : id < tree.frames.size) (covers : ∀ value ∈ initial, tree.Covers value)
    (name : Symbol) (needsBox : Bool) :
    ∃ binding after, tree.bind id name initial needsBox = some (binding, after) ∧ after.Valid := by
  obtain ⟨between, updated⟩ := exists_updateFrame inRange fun held =>
    { held with locals := held.locals.insert name tree.bindings.size }
  obtain ⟨⟨binding, after⟩, bound⟩ : ∃ result, tree.bind id name initial needsBox = some result := by
    simp only [bind, updated, Option.bind_eq_bind, Option.bind_some]
    exact ⟨_, rfl⟩
  exact ⟨binding, after, bound, valid.sound.bind bound, valid.settled.bind covers bound⟩

theorem Valid.exists_updateFunction {change : FnContext → FnContext} (valid : tree.Valid)
    (inRange : id < tree.frames.size) (notes : FnContext.Notes change) :
    ∃ after, tree.updateFrame id (Frame.updateFunction change) = some after ∧ after.Valid := by
  obtain ⟨after, updated⟩ := exists_updateFrame inRange (Frame.updateFunction change)
  obtain ⟨_, _, bindings, _⟩ := updateFrame_some updated
  exact ⟨after, updated, valid.sound.updateFunction notes updated, valid.settled.of_bindings bindings⟩

theorem Valid.exists_fillLoop (valid : tree.Valid) (inRange : id < tree.frames.size) (arity : Nat) :
    ∃ after, tree.updateFrame id (Frame.fillLoop arity) = some after ∧ after.Valid := by
  obtain ⟨after, counted⟩ := exists_updateFrame inRange (Frame.fillLoop arity)
  obtain ⟨_, _, bindings, _⟩ := updateFrame_some counted
  exact ⟨after, counted, valid.sound.fillLoop counted, valid.settled.of_bindings bindings⟩

theorem Valid.lifts (valid : tree.Valid) (lifts : tree.Lifts after) : after.Valid :=
  ⟨valid.sound.lifts lifts, valid.settled.of_bindings lifts.bindings⟩

theorem Valid.exists_liftVar (valid : tree.Valid) (inRange : id < tree.frames.size)
    (names : NameSupply) (name : Symbol) :
    ∃ var after rest, tree.liftVar names id name = some (var, after, rest) ∧ after.Valid := by
  obtain ⟨target, closest, found⟩ := valid.exists_closestFunction inRange
  obtain ⟨held, present⟩ := frame?_of_lt found
  obtain ⟨after, updated⟩ := exists_updateFrame found fun kept =>
    { kept with vars := (held.vars.getOrInsert name ⟨name, (names.fresh name.text).1⟩).2.2 }
  obtain ⟨⟨var, after, rest⟩, lifted⟩ : ∃ result, tree.liftVar names id name = some result := by
    simp only [liftVar, closest, present, Option.bind_eq_bind, Option.bind_some]
    rw [updated]
    exact ⟨_, rfl⟩
  exact ⟨var, after, rest, lifted, valid.lifts (liftVar_lifts lifted)⟩

theorem Valid.exists_liftConstant (valid : tree.Valid) (inRange : id < tree.frames.size)
    (names : NameSupply) (value : Datum) :
    ∃ constant after rest,
      tree.liftConstant names id value = some (constant, after, rest) ∧ after.Valid := by
  obtain ⟨target, closest, found⟩ := valid.exists_closestFunction inRange
  obtain ⟨held, present⟩ := frame?_of_lt found
  obtain ⟨after, updated⟩ := exists_updateFrame found fun kept =>
    { kept with
      constants := (held.constants.getOrInsert value ⟨value, names.freshConstant.1⟩).2.2 }
  obtain ⟨⟨constant, after, rest⟩, lifted⟩ :
      ∃ result, tree.liftConstant names id value = some result := by
    simp only [liftConstant, closest, present, Option.bind_eq_bind, Option.bind_some]
    rw [updated]
    exact ⟨_, rfl⟩
  exact ⟨constant, after, rest, lifted, valid.lifts (liftConstant_lifts lifted)⟩

theorem exists_isUnboxable {expr : Expr} (covers : tree.Covers expr) :
    ∃ flag, tree.isUnboxable expr = some flag := by
  rw [isUnboxable]
  split
  · exact ⟨_, rfl⟩
  · exact ⟨_, rfl⟩
  next name binding boxed node =>
    have inRange := covers binding (by simp [Expr.resultLocals, node])
    have held : tree.binding? binding = some tree.bindings[binding] :=
      Array.getElem?_eq_getElem inRange
    exact ⟨_, by rw [held]; rfl⟩
  · exact ⟨_, rfl⟩

/-! ### Capturing -/

theorem exists_copyInto (inRange : id < tree.frames.size) (name : Symbol) (source : BindingId) :
    ∃ copy made after, tree.copyInto name source id = some (copy, made, after) := by
  obtain ⟨held, present⟩ := frame?_of_lt inRange
  simp only [copyInto, present, Option.bind_eq_bind, Option.bind_some]
  cases found : held.captures.get? name with
  | some copy =>
    rw [Registry.getOrInsert_of_some found]
    exact ⟨_, _, _, rfl⟩
  | none =>
    rw [Registry.getOrInsert_of_none found]
    obtain ⟨after, updated⟩ := exists_updateFrame inRange fun kept =>
      { kept with captures := held.captures.push name tree.bindings.size }
    simp only [updated, Option.bind_some]
    exact ⟨_, _, _, rfl⟩

theorem exists_copyIntoAll {frames : List FrameId}
    (inRange : ∀ frame ∈ frames, frame < tree.frames.size) (name : Symbol) (source : BindingId) :
    ∃ copies made after, tree.copyIntoAll name source frames = some (copies, made, after) := by
  induction frames generalizing tree with
  | nil => exact ⟨_, _, _, rfl⟩
  | cons frame frames ih =>
    obtain ⟨here, others⟩ := List.forall_mem_cons.mp inRange
    obtain ⟨copy, made, between, copied⟩ := exists_copyInto here name source
    have size := (copyInto_captures copied).fills.size
    rw [← size] at others
    obtain ⟨copies, more, after, rest⟩ := ih others
    simp only [copyIntoAll, copied, rest, Option.bind_eq_bind, Option.bind_some]
    exact ⟨_, _, _, rfl⟩

theorem exists_takeAlong (inRange : id < tree.frames.size) (captures : List (Symbol × BindingId)) :
    ∃ after, tree.takeAlong id captures = some after := by
  induction captures generalizing tree with
  | nil => exact ⟨_, rfl⟩
  | cons entry captures ih =>
    obtain ⟨copy, made, between, copied⟩ := exists_copyInto inRange entry.1 entry.2
    have size := (copyInto_captures copied).fills.size
    rw [← size] at inRange
    obtain ⟨after, rest⟩ := ih inRange
    simp only [takeAlong, copied, rest, Option.bind_eq_bind, Option.bind_some]
    exact ⟨_, rfl⟩

/-- The copies that a capture refers to are bindings of the tree. -/
theorem copyIntoAll_lt {name : Symbol} {source : BindingId} {frames : List FrameId}
    {copies : List BindingId} {made : Bool}
    (known : ∀ frame copy, tree.copy? frame name = some copy → copy < tree.bindings.size)
    (copied : tree.copyIntoAll name source frames = some (copies, made, after)) :
    ∀ copy ∈ copies, copy < after.bindings.size := by
  induction frames generalizing tree copies made with
  | nil =>
    cases copied
    nofun
  | cons frame frames ih =>
    obtain ⟨copy, first, between, rest, more, head, tail, rfl, rfl⟩ := copyIntoAll_cons copied
    have grows {other : BindingId} (inRange : other < between.bindings.size) :
        other < after.bindings.size :=
      (copyIntoAll_captures tail).fills.grows.bindings_lt inRange
    obtain ⟨_, rfl, held, present, found⟩ | ⟨_, copies⟩ := copyInto_some head
    · refine List.forall_mem_cons.mpr ⟨grows (known frame copy ?_), ih known tail⟩
      simp [copy?, present, found]
    -- A new copy takes the next number.
    · have size : between.bindings.size = tree.bindings.size + 1 := by
        rw [copies.bindings, Array.size_push]
      have next : copy < between.bindings.size := by
        rw [size, copies.next]
        exact Nat.lt_succ_self _
      refine List.forall_mem_cons.mpr ⟨grows next, ih ?_ tail⟩
      intro other held found
      rw [copies.copy?] at found
      split at found
      · cases found
        exact next
      · rw [size]
        exact Nat.lt_succ_of_lt (known other held found)

/-- What a name refers to can be captured. -/
theorem Valid.exists_capture {name : Symbol} {source : BindingId} {crossed : List FrameId}
    (valid : tree.Valid) (inRange : id < tree.frames.size)
    (refers : tree.Refers id name ⟨.binding source, crossed⟩) :
    ∃ binding between, tree.capture ⟨source, crossed⟩ = some (binding, between) ∧
      between.Settled ∧ binding < between.bindings.size := by
  obtain ⟨ids, path⟩ := valid.exists_path inRange
  obtain ⟨_, inner, at_, outer, rfl, _, answers, rfl⟩ := refers.split path
  obtain ⟨origin, entry⟩ := valid.sound.entry_of_answer answers
  have sourced := entry.lt
  obtain ⟨held, found, named, _⟩ := entry
  have functions (frame : FrameId) (member : frame ∈ inner.filter tree.isFunction) :
      frame < tree.frames.size :=
    path.lt_of_mem (List.mem_append_left _ (List.mem_filter.mp member).1)
  obtain ⟨copies, made, copied, copying⟩ := exists_copyIntoAll functions name source
  have filled := copyIntoAll_captures copying
  have settled := valid.settled.captures filled
  have known := filled.fills.grows.bindings_lt sourced
  -- The use refers to a copy or, if no function was left, to the binding itself.
  have used : copies.head?.getD source < copied.bindings.size := by
    cases copies with
    | nil => exact known
    | cons copy rest =>
      refine copyIntoAll_lt (fun frame held present => ?_) copying copy (List.mem_cons_self ..)
      obtain ⟨_, _, entry⟩ := valid.sound.captures frame name held present
      exact entry.lt
  cases made with
  | false =>
    refine ⟨copies.head?.getD source, copied, ?_, settled, used⟩
    simp [capture, found, named, copying]
  | true =>
    obtain ⟨between, noted⟩ := settled.exists_noteUse known true
    refine ⟨copies.head?.getD source, between, ?_, settled.noteUse noted, ?_⟩
    · simp [capture, found, named, copying, noted]
    · rw [noteUse_size noted]
      exact used

/-- What a name refers to can be used. -/
theorem Valid.exists_use {name : Symbol} {source : BindingId} {crossed : List FrameId}
    (valid : tree.Valid) (inRange : id < tree.frames.size)
    (refers : tree.Refers id name ⟨.binding source, crossed⟩) (boxed : Bool) :
    ∃ binding between after, tree.capture ⟨source, crossed⟩ = some (binding, between) ∧
      between.noteUse binding boxed = some after ∧ after.Valid ∧
      binding < after.bindings.size := by
  obtain ⟨binding, between, captured, settled, used⟩ := valid.exists_capture inRange refers
  obtain ⟨after, noted⟩ := settled.exists_noteUse used boxed
  obtain ⟨ids, path⟩ := valid.exists_path inRange
  obtain ⟨sound, _⟩ := use_spec valid.sound path refers captured noted
  refine ⟨binding, between, after, captured, noted, ⟨sound, settled.noteUse noted⟩, ?_⟩
  rw [noteUse_size noted]
  exact used

/-- An enclosing function can be referred to; its frame is that of a function, which is known. -/
theorem Valid.exists_captureSelf {name : Symbol} {target : FrameId} {crossed : List FrameId}
    (valid : tree.Valid) (inRange : id < tree.frames.size)
    (refers : tree.Refers id name ⟨.self target, crossed⟩) :
    (∃ frame, tree.frame? target = some frame ∧ frame.kind = .function ∧
        frame.function?.isSome = true) ∧
      ∃ after, tree.captureSelf id ⟨target, crossed⟩ = some after ∧ after.Valid := by
  obtain ⟨ids, path⟩ := valid.exists_path inRange
  obtain ⟨_, inner, at_, outer, rfl, _, answers, rfl⟩ := refers.split path
  obtain ⟨rfl, frame, context, held, known, _⟩ := self?_some (answer?_self.mp answers).2.2
  have filled : frame.function?.isSome = true := by
    rw [known]
    rfl
  have function : frame.isFunction = true := (valid.sound.known _ frame held).symm.trans filled
  refine ⟨⟨frame, held, of_decide_eq_true function, filled⟩, ?_⟩
  have taken : ∃ after, tree.captureSelf id ⟨target, inner.filter tree.isFunction⟩ = some after := by
    rw [captureSelf]
    split
    · exact ⟨tree, rfl⟩
    · obtain ⟨nearest, closest, found⟩ := valid.exists_closestFunction inRange
      obtain ⟨after, along⟩ := exists_takeAlong found frame.captures.entries
      exact ⟨after, by simp [closest, held, along]⟩
  obtain ⟨after, taken⟩ := taken
  obtain ⟨sound, _⟩ := self_spec valid.sound path refers taken
  exact ⟨after, taken, sound, valid.settled.captures (captureSelf_captures taken)⟩

/-! ### Tail scopes -/

/-- Out of `let*` and `letfn*` one comes from a frame to a function that is known, to a loop whose
names are counted, or to a `try` or its handler. -/
inductive TailScope (tree : FrameTree) : FrameId → Prop
  | function {id : FrameId} (held : tree.frame? id = some frame) (opened : frame.kind = .function)
      (known : frame.function?.isSome = true) : TailScope tree id
  | loop {id : FrameId} (held : tree.frame? id = some frame) (opened : frame.kind = .loop)
      (counted : frame.loopArity?.isSome = true) : TailScope tree id
  | shield {id : FrameId} (held : tree.frame? id = some frame)
      (opened : frame.kind = .guarded ∨ frame.kind = .handler) : TailScope tree id
  | within {id : FrameId} (held : tree.frame? id = some frame)
      (opened : frame.kind = .lets ∨ frame.kind = .letfns) (inside : frame.parent = some parent)
      (outer : TailScope tree parent) : TailScope tree id

theorem TailScope.grows (grows : tree.Grows after) (scope : tree.TailScope id) :
    after.TailScope id := by
  induction scope with
  | function held opened known =>
    obtain ⟨grown, held, same⟩ := grows.frames _ _ held
    have outline := congrArg Option.isSome same.outline
    rw [Frame.outline?, Option.isSome_map, Frame.outline?, Option.isSome_map] at outline
    exact .function held (same.kind.trans opened) (outline.trans known)
  | loop held opened counted =>
    obtain ⟨grown, held, same⟩ := grows.frames _ _ held
    exact .loop held (same.kind.trans opened) (same.loopArity counted)
  | shield held opened =>
    obtain ⟨grown, held, same⟩ := grows.frames _ _ held
    exact .shield held (same.kind ▸ opened)
  | within held opened inside _ ih =>
    obtain ⟨grown, held, same⟩ := grows.frames _ _ held
    exact .within held (same.kind ▸ opened) (same.parent.trans inside) ih

/-- A climb begins at its frame and goes on from the parent. -/
theorem climb_cons {steps : Nat} {frame : Frame} {lineage : Lineage}
    (climbed : tree.climb steps id = some lineage) (held : tree.frame? id = some frame) :
    ∃ outer, lineage = (id, frame) :: outer ∧
      ∀ parent, frame.parent = some parent → ∃ steps, tree.climb steps parent = some outer := by
  cases steps with
  | zero => cases climbed
  | succ steps =>
    simp only [climb, held, Option.bind_eq_bind, Option.bind_some] at climbed
    cases above : frame.parent with
    | none =>
      rw [above] at climbed
      cases climbed
      refine ⟨[], rfl, ?_⟩
      rintro parent ⟨⟩
    | some parent =>
      simp only [above, Option.bind_eq_some_iff, Option.pure_def, Option.some.injEq] at climbed
      obtain ⟨outer, climbed, rfl⟩ := climbed
      refine ⟨outer, rfl, fun other same => ?_⟩
      cases same
      exact ⟨steps, climbed⟩

/-- In a tail scope a `recur` has a target, unless it would leave a `try`. -/
theorem TailScope.recurTarget {lineage : Lineage} (scope : tree.TailScope id)
    (climbed : tree.lineage id = some lineage) :
    (∃ target, LispScope.recurTarget lineage = .ok target) ∨
      LispScope.recurTarget lineage = .error .recurFromTry := by
  rw [FrameTree.lineage] at climbed
  generalize tree.frames.size = steps at climbed
  induction scope generalizing steps lineage with
  | function held opened known =>
    obtain ⟨outer, rfl, _⟩ := climb_cons climbed held
    obtain ⟨context, known⟩ := Option.isSome_iff_exists.mp known
    exact .inl ⟨_, by rw [LispScope.recurTarget, opened, known]; rfl⟩
  | loop held opened counted =>
    obtain ⟨outer, rfl, _⟩ := climb_cons climbed held
    obtain ⟨arity, counted⟩ := Option.isSome_iff_exists.mp counted
    exact .inl ⟨_, by rw [LispScope.recurTarget, opened, counted]; rfl⟩
  | shield held opened =>
    obtain ⟨outer, rfl, _⟩ := climb_cons climbed held
    rcases opened with opened | opened <;> exact .inr (by rw [LispScope.recurTarget, opened]; rfl)
  | within held opened inside _ ih =>
    obtain ⟨outer, rfl, further⟩ := climb_cons climbed held
    obtain ⟨steps, climbed⟩ := further _ inside
    rcases opened with opened | opened <;> rw [LispScope.recurTarget, opened] <;>
    exact ih steps climbed

end FrameTree

/-- A place in a tree: its frame is in range, and what stands in tail position stands in a tail
scope. -/
structure Context.InScope (tree : FrameTree) (cx : Context) : Prop where
  inRange : cx.frame < tree.frames.size
  tail : cx.position = .tail → tree.TailScope cx.frame

namespace Context.InScope

variable {tree after : FrameTree} {cx : Context}

theorem grows (grows : tree.Grows after) (scope : cx.InScope tree) : cx.InScope after :=
  ⟨Nat.lt_of_lt_of_le scope.inRange grows.size, fun tail => (scope.tail tail).grows grows⟩

theorem operandAs (scope : cx.InScope tree) (boxed : Bool) : (cx.operandAs boxed).InScope tree :=
  ⟨scope.inRange, nofun⟩

theorem operand (scope : cx.InScope tree) : cx.operand.InScope tree := ⟨scope.inRange, nofun⟩

theorem statement (scope : cx.InScope tree) : cx.statement.InScope tree := ⟨scope.inRange, nofun⟩

/-- A place in a new frame, which is left with the value of the place. -/
theorem opened {opening : Opening} {inner : FrameId} (scope : cx.InScope tree)
    (opened : tree.enter opening cx.frame = (inner, after))
    (passes : (opening.kind = .lets ∨ opening.kind = .letfns) ∨
      opening.kind = .guarded ∨ opening.kind = .handler) :
    (cx.inFrame inner).InScope after := by
  obtain ⟨rfl, _, size, held, _⟩ := FrameTree.enter_some opened
  refine ⟨by rw [size]; exact Nat.lt_succ_self _, fun tail => ?_⟩
  rcases passes with through | shielded
  · have grows := (FrameTree.enter_grows opened).1
    exact .within held through rfl ((scope.tail tail).grows grows)
  · exact .shield held shielded

/-- A place in a new frame where nothing stands in tail position. -/
theorem opened_apart {opening : Opening} {inner : FrameId}
    (opened : tree.enter opening cx.frame = (inner, after)) (apart : cx.position ≠ .tail) :
    (cx.inFrame inner).InScope after := by
  obtain ⟨rfl, _, size, _, _⟩ := FrameTree.enter_some opened
  exact ⟨by rw [size]; exact Nat.lt_succ_self _, fun tail => absurd tail apart⟩

end Context.InScope

end LispScope
