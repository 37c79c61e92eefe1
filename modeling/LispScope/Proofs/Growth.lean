import LispScope.Proofs.Script

/-!
# Growth

No step of an analysis takes anything back. A frame keeps its parent, what opened it and what it knows
about its function or loop, apart from the notes that the function is jumped back to or calls itself;
the copies it holds stay where they are. A binding keeps its name, its frame, its initial value and its
source. Names are bound and counted in the current frame only, so that whatever a script does, the names
of all other frames stay as they were.

There are five ways to change a tree: a frame is opened, a name is bound, the names of a loop are
counted, a note is made on a function, or the frames are *filled* with copies, vars, constants and uses.
-/
namespace LispScope

/-! ### Filling -/

/-- Two frames differ in their vars and constants at most. -/
structure Frame.Same (before after : Frame) : Prop where
  kind : after.kind = before.kind
  parent : after.parent = before.parent
  locals : after.locals = before.locals
  captures : after.captures = before.captures
  function? : after.function? = before.function?
  loopArity? : after.loopArity? = before.loopArity?

/-- A frame gets copies, vars and constants, but no names. -/
structure Frame.Fills (before after : Frame) : Prop where
  kind : after.kind = before.kind
  parent : after.parent = before.parent
  locals : after.locals = before.locals
  captures : before.captures.entries <+: after.captures.entries
  function? : after.function? = before.function?
  loopArity? : after.loopArity? = before.loopArity?

/-- A binding is the same apart from its uses; a boxed use comes with the need for a box. -/
structure Binding.Agrees (before after : Binding) : Prop where
  name : after.name = before.name
  frame : after.frame = before.frame
  initial : after.initial = before.initial
  capturedFrom : after.capturedFrom = before.capturedFrom
  boxing : (after.needsBox = before.needsBox ∧ after.hasBoxedUse = before.hasBoxedUse) ∨
    (after.needsBox = true ∧ after.hasBoxedUse = true)

theorem Frame.Same.refl (frame : Frame) : frame.Same frame := ⟨rfl, rfl, rfl, rfl, rfl, rfl⟩

theorem Frame.Same.fills {before after : Frame} (same : before.Same after) : before.Fills after :=
  ⟨same.kind, same.parent, same.locals, same.captures ▸ List.prefix_rfl, same.function?,
    same.loopArity?⟩

theorem Frame.Fills.refl (frame : Frame) : frame.Fills frame :=
  ⟨rfl, rfl, rfl, List.prefix_rfl, rfl, rfl⟩

theorem Frame.Fills.trans {before between after : Frame} (first : before.Fills between)
    (second : between.Fills after) : before.Fills after :=
  ⟨second.kind.trans first.kind, second.parent.trans first.parent,
    second.locals.trans first.locals, first.captures.trans second.captures,
    second.function?.trans first.function?, second.loopArity?.trans first.loopArity?⟩

theorem Binding.Agrees.refl (binding : Binding) : binding.Agrees binding :=
  ⟨rfl, rfl, rfl, rfl, .inl ⟨rfl, rfl⟩⟩

theorem Binding.Agrees.trans {before between after : Binding} (first : before.Agrees between)
    (second : between.Agrees after) : before.Agrees after := by
  refine ⟨second.name.trans first.name, second.frame.trans first.frame,
    second.initial.trans first.initial, second.capturedFrom.trans first.capturedFrom, ?_⟩
  obtain ⟨needsBox, boxed⟩ | forced := second.boxing
  · rw [needsBox, boxed]
    exact first.boxing
  · exact .inr forced

namespace FrameTree

/-- All bindings stay, apart from their uses. -/
def KeepsBindings (before after : FrameTree) : Prop :=
  ∀ id binding, before.binding? id = some binding →
    ∃ kept, after.binding? id = some kept ∧ binding.Agrees kept

/-- The frames of a tree are filled, and bindings may be added. -/
structure Fills (before after : FrameTree) : Prop where
  size : after.frames.size = before.frames.size
  frames : ∀ id frame, before.frame? id = some frame →
    ∃ filled, after.frame? id = some filled ∧ frame.Fills filled
  bindings : before.KeepsBindings after

theorem KeepsBindings.refl (tree : FrameTree) : tree.KeepsBindings tree :=
  fun _ binding held => ⟨binding, held, .refl binding⟩

theorem KeepsBindings.trans {before between after : FrameTree}
    (first : before.KeepsBindings between) (second : between.KeepsBindings after) :
    before.KeepsBindings after := by
  intro id binding held
  obtain ⟨kept, held, agrees⟩ := first id binding held
  obtain ⟨last, held, agrees'⟩ := second id kept held
  exact ⟨last, held, agrees.trans agrees'⟩

theorem Fills.refl (tree : FrameTree) : tree.Fills tree :=
  ⟨rfl, fun _ frame held => ⟨frame, held, .refl frame⟩, .refl tree⟩

theorem Fills.trans {before between after : FrameTree} (first : before.Fills between)
    (second : between.Fills after) : before.Fills after := by
  refine ⟨second.size.trans first.size, ?_, first.bindings.trans second.bindings⟩
  intro id frame held
  obtain ⟨filled, held, fills⟩ := first.frames id frame held
  obtain ⟨last, held, fills'⟩ := second.frames id filled held
  exact ⟨last, held, fills.trans fills'⟩

/-! ### What the operations change -/

variable {tree after : FrameTree} {id : FrameId}

theorem keepsBindings_push {binding : Binding}
    (pushed : after.bindings = tree.bindings.push binding) : tree.KeepsBindings after := by
  intro other held found
  have inRange : other < tree.bindings.size := (Array.getElem?_eq_some_iff.mp found).1
  refine ⟨held, ?_, .refl held⟩
  rw [binding?, pushed, Array.getElem?_push_lt (by omega), ← Array.getElem?_eq_getElem]
  exact found

theorem binding?_push {binding : Binding} (pushed : after.bindings = tree.bindings.push binding)
    (other : BindingId) :
    after.binding? other =
      if other = tree.bindings.size then some binding else tree.binding? other := by
  rw [binding?, pushed, Array.getElem?_push]
  rfl

/-- An update changes one frame, which must exist. -/
theorem updateFrame_some {change : Frame → Frame}
    (updated : tree.updateFrame id change = some after) :
    ∃ held, tree.frame? id = some held ∧ after.bindings = tree.bindings ∧
      after.frames.size = tree.frames.size ∧ after.frame? id = some (change held) ∧
      ∀ other, other ≠ id → after.frame? other = tree.frame? other := by
  rw [updateFrame] at updated
  split at updated
  next inRange =>
    cases updated
    refine ⟨tree.frames[id], Array.getElem?_eq_getElem inRange, rfl, ?_, ?_, ?_⟩
    · exact Array.size_modify
    · rw [frame?, Array.getElem?_modify, if_pos rfl, Array.getElem?_eq_getElem inRange]
      rfl
    · intro other differs
      simp [frame?, Array.getElem?_modify, Ne.symm differs]
  next => cases updated

/-- A frame holds a copy under a name. -/
def Holds (tree : FrameTree) (frame : FrameId) (name : Symbol) (copy : BindingId) : Prop :=
  ∃ held, tree.frame? frame = some held ∧ held.captures.get? name = some copy

/-- A copy is added under a name that the frame holds none for. -/
structure Copies (name : Symbol) (source : BindingId) (frame : FrameId) (copy : BindingId)
    (before after : FrameTree) : Prop where
  size : after.frames.size = before.frames.size
  added : ∃ held, before.frame? frame = some held ∧ held.captures.get? name = none ∧
    after.frame? frame = some { held with captures := held.captures.push name copy }
  others : ∀ id, id ≠ frame → after.frame? id = before.frame? id
  next : copy = before.bindings.size
  bindings : after.bindings = before.bindings.push (.copyOf source name frame)

theorem Copies.fills {name : Symbol} {source copy : BindingId}
    (copies : Copies name source id copy tree after) : tree.Fills after := by
  obtain ⟨held, found, _, changed⟩ := copies.added
  refine ⟨copies.size, ?_, keepsBindings_push copies.bindings⟩
  intro other frame present
  by_cases same : other = id
  · subst same
    rw [found] at present
    cases present
    exact ⟨_, changed, rfl, rfl, rfl, List.prefix_append _ _, rfl, rfl⟩
  · exact ⟨frame, (copies.others other same).trans present, .refl frame⟩

/-- The copy under a name was held before, or it is added. -/
theorem copyInto_some {name : Symbol} {source copy : BindingId} {made : Bool}
    (copied : tree.copyInto name source id = some (copy, made, after)) :
    (made = false ∧ after = tree ∧ tree.Holds id name copy) ∨
      (made = true ∧ Copies name source id copy tree after) := by
  simp only [copyInto, Option.bind_eq_bind, Option.bind_eq_some_iff] at copied
  obtain ⟨held, found, copied⟩ := copied
  cases present : held.captures.get? name with
  -- The frame holds a copy under the name already.
  | some earlier =>
    rw [Registry.getOrInsert_of_some present] at copied
    cases copied
    exact .inl ⟨rfl, rfl, held, found, present⟩
  | none =>
    rw [Registry.getOrInsert_of_none present] at copied
    simp only [Option.pure_def, Option.bind_eq_some_iff, Option.some.injEq,
      Prod.mk.injEq] at copied
    obtain ⟨between, updated, rfl, rfl, rfl⟩ := copied
    -- The new copy takes the next number and comes last in the frame.
    obtain ⟨same, found', bindings, size, changed, others⟩ := updateFrame_some updated
    rw [found] at found'
    cases found'
    exact .inr ⟨rfl, size, ⟨held, found, present, changed⟩, others, rfl, by rw [bindings]⟩

/-- Copies are made one after the other. -/
theorem copyIntoAll_cons {name : Symbol} {source : BindingId} {frame : FrameId}
    {frames : List FrameId} {copies : List BindingId} {made : Bool}
    (copied : tree.copyIntoAll name source (frame :: frames) = some (copies, made, after)) :
    ∃ copy first between rest more, tree.copyInto name source frame = some (copy, first, between) ∧
      between.copyIntoAll name source frames = some (rest, more, after) ∧
      copies = copy :: rest ∧ made = (first || more) := by
  simp only [copyIntoAll, Option.bind_eq_bind, Option.bind_eq_some_iff, Option.pure_def,
    Option.some.injEq, Prod.mk.injEq] at copied
  obtain ⟨⟨copy, first, between⟩, head, ⟨rest, more, last⟩, tail, rfl, rfl, rfl⟩ := copied
  exact ⟨copy, first, between, rest, more, head, tail, rfl, rfl⟩

theorem spreadBoxedUse_agrees {bindings marked : Array Binding} {pending : List BindingId}
    (spread : spreadBoxedUse bindings pending = some marked) :
    ∀ (id : BindingId) (binding : Binding), bindings[id]? = some binding →
      ∃ kept, marked[id]? = some kept ∧ binding.Agrees kept := by
  fun_induction spreadBoxedUse bindings pending with
  | case1 bindings =>
    cases spread
    exact fun id binding held => ⟨binding, held, .refl binding⟩
  | case2 bindings next pending inRange boxed ih => exact ih spread
  -- A binding is marked once; its aliases may be marked on the way.
  | case3 bindings next pending inRange fresh used ih =>
    intro id binding held
    by_cases same : next = id
    · subst same
      have current : bindings[next] = binding :=
        Option.some.inj ((Array.getElem?_eq_getElem inRange).symm.trans held)
      obtain ⟨kept, held, agrees⟩ := ih spread next used (by simp [inRange])
      refine ⟨kept, held, .trans ?_ agrees⟩
      rw [← current]
      exact ⟨rfl, rfl, rfl, rfl, .inr ⟨rfl, rfl⟩⟩
    · exact ih spread id binding (by rw [Array.getElem?_set_ne _ same]; exact held)
  | case4 => cases spread

theorem spreadBoxedUse_size {bindings marked : Array Binding} {pending : List BindingId}
    (spread : spreadBoxedUse bindings pending = some marked) : marked.size = bindings.size := by
  fun_induction spreadBoxedUse bindings pending with
  | case1 bindings =>
    cases spread
    rfl
  | case2 bindings next pending inRange boxed ih => exact ih spread
  | case3 bindings next pending inRange fresh used ih => exact (ih spread).trans (Array.size_set _)
  | case4 => cases spread

/-- A boxed use is spread over the bindings, an unboxed one sets a flag. No frame changes. -/
theorem noteUse_some {binding : BindingId} {boxed : Bool}
    (noted : tree.noteUse binding boxed = some after) :
    after.frames = tree.frames ∧
      ((boxed = true ∧ spreadBoxedUse tree.bindings [binding] = some after.bindings) ∨
        (boxed = false ∧ binding < tree.bindings.size ∧
          after.bindings = tree.bindings.modify binding Binding.useUnboxed)) := by
  cases boxed with
  | true =>
    simp only [noteUse, if_true, Option.bind_eq_bind, Option.bind_eq_some_iff, Option.pure_def,
      Option.some.injEq] at noted
    obtain ⟨marked, spread, rfl⟩ := noted
    exact ⟨rfl, .inl ⟨rfl, spread⟩⟩
  | false =>
    simp only [noteUse, Bool.false_eq_true, if_false, Option.ite_none_right_eq_some] at noted
    obtain ⟨inRange, noted⟩ := noted
    cases noted
    exact ⟨rfl, .inr ⟨rfl, inRange, rfl⟩⟩

theorem noteUse_size {binding : BindingId} {boxed : Bool}
    (noted : tree.noteUse binding boxed = some after) :
    after.bindings.size = tree.bindings.size := by
  obtain ⟨_, ⟨_, spread⟩ | ⟨_, _, marked⟩⟩ := noteUse_some noted
  · exact spreadBoxedUse_size spread
  · rw [marked]
    exact Array.size_modify

theorem noteUse_keepsBindings {binding : BindingId} {boxed : Bool}
    (noted : tree.noteUse binding boxed = some after) : tree.KeepsBindings after := by
  obtain ⟨_, ⟨_, spread⟩ | ⟨_, _, marked⟩⟩ := noteUse_some noted
  · exact spreadBoxedUse_agrees spread
  · intro other held found
    simp only [binding?] at found
    by_cases same : binding = other
    · subst same
      refine ⟨held.useUnboxed, ?_, rfl, rfl, rfl, rfl, .inl ⟨rfl, rfl⟩⟩
      simp [binding?, marked, Array.getElem?_modify, found]
    · refine ⟨held, ?_, .refl held⟩
      simp [binding?, marked, Array.getElem?_modify, same, found]

theorem noteUse_fills {binding : BindingId} {boxed : Bool}
    (noted : tree.noteUse binding boxed = some after) : tree.Fills after := by
  obtain ⟨frames, _⟩ := noteUse_some noted
  refine ⟨by rw [frames], ?_, noteUse_keepsBindings noted⟩
  intro id frame held
  exact ⟨frame, by rw [frame?, frames]; exact held, .refl frame⟩

/-- Capturing copies into the functions that were left and then notes a use if need be. -/
theorem capture_some {found : Found BindingId} {use : BindingId}
    (captured : tree.capture found = some (use, after)) :
    ∃ source copies made between, tree.binding? found.target = some source ∧
      tree.copyIntoAll source.name found.target found.crossed = some (copies, made, between) ∧
      use = copies.head?.getD found.target ∧
      ((made = false ∧ after = between) ∨
        (made = true ∧ between.noteUse found.target true = some after)) := by
  simp only [capture, Option.bind_eq_bind, Option.bind_eq_some_iff, Option.pure_def] at captured
  obtain ⟨source, present, ⟨copies, made, between⟩, copied, captured⟩ := captured
  cases made with
  | false =>
    cases captured
    exact ⟨source, copies, false, between, present, copied, rfl, .inl ⟨rfl, rfl⟩⟩
  | true =>
    simp only [if_true, Option.bind_eq_some_iff, Option.some.injEq, Prod.mk.injEq] at captured
    obtain ⟨_, noted, rfl, rfl⟩ := captured
    exact ⟨source, copies, true, between, present, copied, rfl, .inr ⟨rfl, noted⟩⟩

/-- Captures are taken along one after the other. -/
theorem takeAlong_cons {name : Symbol} {source : BindingId} {captures : List (Symbol × BindingId)}
    (taken : tree.takeAlong id ((name, source) :: captures) = some after) :
    ∃ copy made between, tree.copyInto name source id = some (copy, made, between) ∧
      between.takeAlong id captures = some after := by
  simp only [takeAlong, Option.bind_eq_bind, Option.bind_eq_some_iff] at taken
  obtain ⟨⟨copy, made, between⟩, copied, rest⟩ := taken
  exact ⟨copy, made, between, copied, rest⟩

/-- A reference to an enclosing function changes nothing unless it leaves a function; then the
nearest one takes along what the enclosing one holds. -/
theorem captureSelf_some {found : Found FrameId} (taken : tree.captureSelf id found = some after) :
    (found.crossed = [] ∧ after = tree) ∨
      (found.crossed ≠ [] ∧ ∃ nearest held, tree.closestFunction id = some nearest ∧
        tree.frame? found.target = some held ∧
        tree.takeAlong nearest held.captures.entries = some after) := by
  rw [captureSelf] at taken
  split at taken
  next stays => exact .inl ⟨List.isEmpty_iff.mp stays, (Option.some.inj taken).symm⟩
  next leaves =>
    simp only [Option.bind_eq_bind, Option.bind_eq_some_iff] at taken
    obtain ⟨nearest, closest, held, found, taken⟩ := taken
    exact .inr ⟨fun empty => leaves (List.isEmpty_iff.mpr empty), nearest, held, closest, found, taken⟩

/-- What capturing comes down to: copies are added one by one, and uses are noted. -/
inductive Captures : FrameTree → FrameTree → Prop
  | done {tree : FrameTree} : Captures tree tree
  | copy {before between after : FrameTree}
      (copies : Copies name source frame copy before between) (rest : Captures between after) :
      Captures before after
  | use {before between after : FrameTree} (noted : before.noteUse binding boxed = some between)
      (rest : Captures between after) : Captures before after

theorem Captures.trans {before between after : FrameTree} (first : before.Captures between)
    (second : between.Captures after) : before.Captures after := by
  induction first with
  | done => exact second
  | copy copies _ ih => exact .copy copies (ih second)
  | use noted _ ih => exact .use noted (ih second)

theorem copyInto_captures {name : Symbol} {source copy : BindingId} {made : Bool}
    (copied : tree.copyInto name source id = some (copy, made, after)) : tree.Captures after := by
  rcases copyInto_some copied with ⟨_, rfl, _⟩ | ⟨_, copies⟩
  · exact .done
  · exact .copy copies .done

theorem copyIntoAll_captures {name : Symbol} {source : BindingId} {frames : List FrameId}
    {copies : List BindingId} {made : Bool}
    (copied : tree.copyIntoAll name source frames = some (copies, made, after)) :
    tree.Captures after := by
  induction frames generalizing tree copies made with
  | nil =>
    cases copied
    exact .done
  | cons frame frames ih =>
    obtain ⟨_, _, between, _, _, head, tail, _, _⟩ := copyIntoAll_cons copied
    exact (copyInto_captures head).trans (ih tail)

theorem takeAlong_captures {captures : List (Symbol × BindingId)}
    (taken : tree.takeAlong id captures = some after) : tree.Captures after := by
  induction captures generalizing tree with
  | nil =>
    cases taken
    exact .done
  | cons entry captures ih =>
    obtain ⟨_, _, between, copied, rest⟩ := takeAlong_cons taken
    exact (copyInto_captures copied).trans (ih rest)

/-- A use of a local name captures it and is noted. -/
theorem use_captures {found : Found BindingId} {use : BindingId} {boxed : Bool}
    {between : FrameTree} (captured : tree.capture found = some (use, between))
    (noted : between.noteUse use boxed = some after) : tree.Captures after := by
  have last : between.Captures after := .use noted .done
  obtain ⟨_, _, _, _, _, copied, _, ⟨_, rfl⟩ | ⟨_, spread⟩⟩ := capture_some captured
  · exact (copyIntoAll_captures copied).trans last
  · exact (copyIntoAll_captures copied).trans (.use spread last)

theorem captureSelf_captures {found : Found FrameId}
    (taken : tree.captureSelf id found = some after) : tree.Captures after := by
  rcases captureSelf_some taken with ⟨_, rfl⟩ | ⟨_, _, _, _, _, along⟩
  · exact .done
  · exact takeAlong_captures along

theorem Captures.fills {before after : FrameTree} (captures : before.Captures after) :
    before.Fills after := by
  induction captures with
  | done => exact .refl _
  | copy copies _ ih => exact copies.fills.trans ih
  | use noted _ ih => exact (noteUse_fills noted).trans ih

theorem use_fills {found : Found BindingId} {use : BindingId} {boxed : Bool} {between : FrameTree}
    (captured : tree.capture found = some (use, between))
    (noted : between.noteUse use boxed = some after) : tree.Fills after :=
  (use_captures captured noted).fills

theorem captureSelf_fills {found : Found FrameId}
    (taken : tree.captureSelf id found = some after) : tree.Fills after :=
  (captureSelf_captures taken).fills

/-- No frame changes but in its vars and constants. -/
structure Lifts (before after : FrameTree) : Prop where
  size : after.frames.size = before.frames.size
  frames : ∀ id frame, before.frame? id = some frame →
    ∃ lifted, after.frame? id = some lifted ∧ frame.Same lifted
  bindings : after.bindings = before.bindings

theorem Lifts.refl (tree : FrameTree) : tree.Lifts tree :=
  ⟨rfl, fun _ frame held => ⟨frame, held, .refl frame⟩, rfl⟩

theorem Lifts.fills (lifts : tree.Lifts after) : tree.Fills after := by
  refine ⟨lifts.size, ?_, ?_⟩
  · intro id frame held
    obtain ⟨lifted, held, same⟩ := lifts.frames id frame held
    exact ⟨lifted, held, same.fills⟩
  · intro id binding held
    exact ⟨binding, by rw [binding?, lifts.bindings]; exact held, .refl binding⟩

theorem updateFrame_lifts {change : Frame → Frame}
    (updated : tree.updateFrame id change = some after)
    (same : ∀ held, Frame.Same held (change held)) : tree.Lifts after := by
  obtain ⟨held, found, bindings, size, changed, others⟩ := updateFrame_some updated
  refine ⟨size, ?_, bindings⟩
  intro other frame present
  by_cases here : other = id
  · subst here
    rw [found] at present
    cases present
    exact ⟨change held, changed, same held⟩
  · exact ⟨frame, (others other here).trans present, .refl frame⟩

theorem liftVar_lifts {supply names : NameSupply} {name : Symbol} {var : LiftedVar}
    (lifted : tree.liftVar supply id name = some (var, after, names)) : tree.Lifts after := by
  simp only [liftVar, Option.bind_eq_bind, Option.bind_eq_some_iff, Option.pure_def,
    Option.some.injEq, Prod.mk.injEq] at lifted
  obtain ⟨target, _, held, _, between, updated, _, rfl, _⟩ := lifted
  exact updateFrame_lifts updated fun held => ⟨rfl, rfl, rfl, rfl, rfl, rfl⟩

theorem liftConstant_lifts {supply names : NameSupply} {value : Datum} {constant : LiftedConstant}
    (lifted : tree.liftConstant supply id value = some (constant, after, names)) :
    tree.Lifts after := by
  simp only [liftConstant, Option.bind_eq_bind, Option.bind_eq_some_iff, Option.pure_def,
    Option.some.injEq, Prod.mk.injEq] at lifted
  obtain ⟨target, _, held, _, between, updated, _, rfl, _⟩ := lifted
  exact updateFrame_lifts updated fun held => ⟨rfl, rfl, rfl, rfl, rfl, rfl⟩

end FrameTree

/-! ### The effect of a node -/

theorem Node.noReference_of_var {node : Node ε} {var : LiftedVar} (looked : node.var? = some var) :
    node.localRef? = none ∧ node.recursesTo? = none := by
  cases node <;> simp_all [var?, localRef?, recursesTo?]

theorem Node.noReference_of_isIdle {node : Node ε} (idle : node.isIdle = true) :
    node.localRef? = none ∧ node.recursesTo? = none := by
  cases node <;> simp_all [isIdle, localRef?, recursesTo?]

/-- What a node does to the tree before its script: it uses a local name, it refers to an enclosing
function, or it lifts at most. -/
inductive Effect (frame : FrameId) (node : Node Expr) (before after : FrameTree) : Prop
  | lifts (notLocal : node.localRef? = none) (notSelf : node.recursesTo? = none)
      (lifts : before.Lifts after)
  | uses (local? : node.localRef? = some (name, binding, boxed)) (notSelf : node.recursesTo? = none)
      (refers : before.Refers frame name ⟨.binding source, crossed⟩)
      (captured : before.capture ⟨source, crossed⟩ = some (binding, between))
      (noted : between.noteUse binding boxed = some after)
  | recurs (notLocal : node.localRef? = none) (self : node.recursesTo? = some target)
      (refers : before.Refers frame name ⟨.self target, crossed⟩)
      (taken : before.captureSelf frame ⟨target, crossed⟩ = some between)
      (marked : (node.called? = none ∧ after = between) ∨ (node.called? = some target ∧
        between.updateFrame target (Frame.updateFunction .markNamed) = some after))

theorem Begins.effect {frame : FrameId} {node : Node Expr} {before after : Store}
    (begins : Begins frame node before after) : Effect frame node before.tree after.tree := by
  cases begins with
  | var looked lifted =>
    obtain ⟨notLocal, notSelf⟩ := Node.noReference_of_var looked
    exact .lifts notLocal notSelf (FrameTree.liftVar_lifts lifted)
  | literal plain => exact .lifts rfl rfl (.refl _)
  | constant lifting lifted => exact .lifts rfl rfl (FrameTree.liftConstant_lifts lifted)
  | localRef refers captured noted => exact .uses rfl rfl refers captured noted
  | function plain drawn => exact .lifts rfl rfl (.refl _)
  | recur path aimed => exact .lifts rfl rfl (.refl _)
  | selfRef refers taken => exact .recurs rfl rfl refers taken (.inl ⟨rfl, rfl⟩)
  | selfCall refers taken marked => exact .recurs rfl rfl refers taken (.inr ⟨rfl, marked⟩)
  | idle idle =>
    obtain ⟨notLocal, notSelf⟩ := Node.noReference_of_isIdle idle
    exact .lifts notLocal notSelf (.refl _)

/-! ### Growing -/

/-- A context without the notes on its function. -/
def FnContext.outline (context : FnContext) : FnContext :=
  { context with isTailRecursive := false, isNamedRecursive := false }

/-- What a frame knows about its function, without the notes on it. -/
def Frame.outline? (frame : Frame) : Option FnContext := frame.function?.map FnContext.outline

/-- A frame keeps its parent, what opened it, what it knows of its function, and the copies it holds. A
loop whose names are counted stays so. -/
structure Frame.Grows (before after : Frame) : Prop where
  kind : after.kind = before.kind
  parent : after.parent = before.parent
  captures : before.captures.entries <+: after.captures.entries
  outline : after.outline? = before.outline?
  loopArity : before.loopArity?.isSome = true → after.loopArity?.isSome = true

theorem Frame.Grows.trans {before between after : Frame} (first : before.Grows between)
    (second : between.Grows after) : before.Grows after :=
  ⟨second.kind.trans first.kind, second.parent.trans first.parent,
    first.captures.trans second.captures, second.outline.trans first.outline,
    fun known => second.loopArity (first.loopArity known)⟩

theorem Frame.Grows.isFunction {before after : Frame} (grows : before.Grows after) :
    after.isFunction = before.isFunction := by
  rw [Frame.isFunction, Frame.isFunction, grows.kind]

theorem Frame.Fills.grows {before after : Frame} (fills : before.Fills after) :
    before.Grows after :=
  ⟨fills.kind, fills.parent, fills.captures, by rw [outline?, fills.function?, outline?],
    fun known => fills.loopArity? ▸ known⟩

/-- A note on a function is a change of its context that the outline does not show. -/
structure FnContext.Notes (change : FnContext → FnContext) : Prop where
  outline : ∀ context, (change context).outline = context.outline

theorem FnContext.markTail_notes : Notes markTail := ⟨fun _ => rfl⟩

theorem FnContext.markNamed_notes : Notes markNamed := ⟨fun _ => rfl⟩

theorem Frame.updateFunction_grows {change : FnContext → FnContext}
    (notes : FnContext.Notes change) (frame : Frame) :
    frame.Grows (frame.updateFunction change) := by
  refine ⟨rfl, rfl, List.prefix_rfl, ?_, fun known => known⟩
  have outlines : FnContext.outline ∘ change = FnContext.outline := funext notes.outline
  simp [outline?, updateFunction, outlines]

theorem Frame.fillLoop_grows (frame : Frame) (arity : Nat) : frame.Grows (frame.fillLoop arity) :=
  ⟨rfl, rfl, List.prefix_rfl, rfl, fun _ => rfl⟩

namespace FrameTree

/-- No frame or binding is taken back. -/
structure Grows (before after : FrameTree) : Prop where
  size : before.frames.size ≤ after.frames.size
  frames : ∀ id frame, before.frame? id = some frame →
    ∃ grown, after.frame? id = some grown ∧ frame.Grows grown
  bindings : before.KeepsBindings after

/-- The names of a frame stay as they are, and so does their number. -/
def KeepsNames (id : FrameId) (before after : FrameTree) : Prop :=
  ∀ frame, before.frame? id = some frame →
    ∃ kept, after.frame? id = some kept ∧ kept.locals = frame.locals ∧
      kept.loopArity? = frame.loopArity?

variable {tree before between after : FrameTree} {id : FrameId}

theorem Fills.grows (fills : before.Fills after) : before.Grows after := by
  refine ⟨Nat.le_of_eq fills.size.symm, ?_, fills.bindings⟩
  intro id frame held
  obtain ⟨filled, held, grows⟩ := fills.frames id frame held
  exact ⟨filled, held, grows.grows⟩

theorem Fills.keepsNames (fills : before.Fills after) : KeepsNames id before after := by
  intro frame held
  obtain ⟨filled, held, grows⟩ := fills.frames id frame held
  exact ⟨filled, held, grows.locals, grows.loopArity?⟩

theorem Grows.refl (tree : FrameTree) : tree.Grows tree := (Fills.refl tree).grows

theorem Grows.trans (first : before.Grows between) (second : between.Grows after) :
    before.Grows after := by
  refine ⟨Nat.le_trans first.size second.size, ?_, first.bindings.trans second.bindings⟩
  intro id frame held
  obtain ⟨grown, held, grows⟩ := first.frames id frame held
  obtain ⟨last, held, grows'⟩ := second.frames id grown held
  exact ⟨last, held, grows.trans grows'⟩

theorem KeepsNames.refl : KeepsNames id tree tree := fun frame held => ⟨frame, held, rfl, rfl⟩

theorem KeepsNames.trans (first : KeepsNames id before between)
    (second : KeepsNames id between after) : KeepsNames id before after := by
  intro frame held
  obtain ⟨kept, held, locals, arity⟩ := first frame held
  obtain ⟨last, held, locals', arity'⟩ := second kept held
  exact ⟨last, held, locals'.trans locals, arity'.trans arity⟩

theorem frame?_lt {frame : Frame} (held : tree.frame? id = some frame) : id < tree.frames.size :=
  (Array.getElem?_eq_some_iff.mp held).1

theorem binding?_lt {binding : Binding} {id : BindingId} (held : tree.binding? id = some binding) :
    id < tree.bindings.size :=
  (Array.getElem?_eq_some_iff.mp held).1

/-- A frame that is added comes after all others. -/
theorem frame?_push {new : Frame} (pushed : after.frames = tree.frames.push new) :
    after.frames.size = tree.frames.size + 1 ∧ after.frame? tree.frames.size = some new ∧
      ∀ id, id ≠ tree.frames.size → after.frame? id = tree.frame? id := by
  simp only [frame?, pushed]
  refine ⟨Array.size_push _, Array.getElem?_push_size, ?_⟩
  intro id differs
  rw [Array.getElem?_push, if_neg differs]

theorem openFrame_some {kind : FrameKind} {parent inner : FrameId}
    (opened : tree.openFrame kind parent = (inner, after)) :
    inner = tree.frames.size ∧ after.bindings = tree.bindings ∧
      after.frames.size = tree.frames.size + 1 ∧
      after.frame? inner = some { kind, parent := some parent } ∧
      ∀ id, id ≠ inner → after.frame? id = tree.frame? id := by
  cases opened
  exact ⟨rfl, rfl, frame?_push rfl⟩

theorem enter_some {opening : Opening} {parent inner : FrameId}
    (opened : tree.enter opening parent = (inner, after)) :
    inner = tree.frames.size ∧ after.bindings = tree.bindings ∧
      after.frames.size = tree.frames.size + 1 ∧
      after.frame? inner = some (opening.frame parent) ∧
      ∀ id, id ≠ inner → after.frame? id = tree.frame? id := by
  cases opened
  exact ⟨rfl, rfl, frame?_push rfl⟩

theorem enter_of_openFrame (opening : Opening) {parent inner : FrameId}
    (opened : tree.openFrame opening.kind parent = (inner, after))
    (plain : opening.function? = none) : tree.enter opening parent = (inner, after) := by
  rw [← opened, enter, Opening.frame, plain, openFrame]

/-- The frame of a function is opened, and then what is known of the function is filled in. -/
theorem enter_of_fillFunction {context : FnContext} {parent inner : FrameId}
    (opened : tree.openFrame .function parent = (inner, between))
    (filled : between.updateFrame inner (Frame.fillFunction context) = some after) :
    tree.enter (.function context) parent = (inner, after) := by
  cases opened
  rw [updateFrame, if_pos (by simp)] at filled
  cases filled
  refine Prod.ext rfl ?_
  simp only [enter, mk.injEq, and_true]
  refine Array.ext_getElem? fun id => ?_
  rw [Array.getElem?_modify, Array.getElem?_push, Array.getElem?_push]
  by_cases last : id = tree.frames.size
  · rw [if_pos last, if_pos last, if_pos last.symm]
    rfl
  · rw [if_neg last, if_neg last, if_neg (Ne.symm last)]

theorem grows_of_push {new : Frame} (pushed : after.frames = tree.frames.push new)
    (bindings : after.bindings = tree.bindings) :
    tree.Grows after ∧ ∀ id < tree.frames.size, KeepsNames id tree after := by
  obtain ⟨size, _, others⟩ := frame?_push pushed
  have old (id : FrameId) (frame : Frame) (held : tree.frame? id = some frame) :
      after.frame? id = some frame := by
    rw [others id (Nat.ne_of_lt (frame?_lt held))]
    exact held
  refine ⟨⟨by omega, ?_, ?_⟩, ?_⟩
  · intro id frame held
    exact ⟨frame, old id frame held, (Frame.Fills.refl frame).grows⟩
  · intro id binding held
    exact ⟨binding, by rw [binding?, bindings]; exact held, .refl binding⟩
  · intro id _ frame held
    exact ⟨frame, old id frame held, rfl, rfl⟩

theorem openFrame_grows {kind : FrameKind} {parent inner : FrameId}
    (opened : tree.openFrame kind parent = (inner, after)) :
    tree.Grows after ∧ ∀ id < tree.frames.size, KeepsNames id tree after := by
  cases opened
  exact grows_of_push rfl rfl

theorem enter_grows {opening : Opening} {parent inner : FrameId}
    (opened : tree.enter opening parent = (inner, after)) :
    tree.Grows after ∧ ∀ id < tree.frames.size, KeepsNames id tree after := by
  cases opened
  exact grows_of_push rfl rfl

/-- An update takes nothing back if its change takes nothing back. -/
theorem updateFrame_grows {change : Frame → Frame} {target : FrameId}
    (updated : tree.updateFrame target change = some after)
    (grows : ∀ held, tree.frame? target = some held → held.Grows (change held)) :
    tree.Grows after := by
  obtain ⟨held, found, bindings, size, changed, others⟩ := updateFrame_some updated
  refine ⟨Nat.le_of_eq size.symm, ?_, ?_⟩
  · intro id frame present
    by_cases same : id = target
    · subst same
      rw [found] at present
      cases present
      exact ⟨_, changed, grows held found⟩
    · exact ⟨frame, (others id same).trans present, (Frame.Fills.refl frame).grows⟩
  · intro id binding present
    exact ⟨binding, by rw [binding?, bindings]; exact present, .refl binding⟩

theorem fillLoop_grows {frame : FrameId} {arity : Nat}
    (counted : tree.updateFrame frame (Frame.fillLoop arity) = some after) : tree.Grows after :=
  updateFrame_grows counted fun held _ => Frame.fillLoop_grows held arity

theorem updateFunction_grows {change : FnContext → FnContext} {target : FrameId}
    (notes : FnContext.Notes change)
    (updated : tree.updateFrame target (Frame.updateFunction change) = some after) :
    tree.Grows after ∧ ∀ id, KeepsNames id tree after := by
  refine ⟨updateFrame_grows updated fun held _ => Frame.updateFunction_grows notes held, ?_⟩
  obtain ⟨held, found, _, _, changed, others⟩ := updateFrame_some updated
  intro id frame present
  by_cases same : id = target
  · subst same
    rw [found] at present
    cases present
    exact ⟨_, changed, rfl, rfl⟩
  · exact ⟨frame, (others id same).trans present, rfl, rfl⟩

/-- A name that is bound gets the next binding, in the given frame. -/
theorem bind_some {frame : FrameId} {name : Symbol} {initial : Option Expr} {needsBox : Bool}
    {binding : BindingId} (bound : tree.bind frame name initial needsBox = some (binding, after)) :
    binding = tree.bindings.size ∧
      after.bindings = tree.bindings.push (.fresh name frame initial needsBox) ∧
      after.frames.size = tree.frames.size ∧
      (∃ held, tree.frame? frame = some held ∧
        after.frame? frame = some { held with locals := held.locals.insert name binding }) ∧
      ∀ id, id ≠ frame → after.frame? id = tree.frame? id := by
  simp only [bind, Option.bind_eq_bind, Option.bind_eq_some_iff, Option.pure_def,
    Option.some.injEq, Prod.mk.injEq] at bound
  obtain ⟨between, updated, rfl, rfl⟩ := bound
  obtain ⟨held, found, bindings, size, changed, others⟩ := updateFrame_some updated
  exact ⟨rfl, by rw [bindings], size, ⟨held, found, changed⟩, others⟩

theorem bind_grows {frame : FrameId} {name : Symbol} {initial : Option Expr} {needsBox : Bool}
    {binding : BindingId} (bound : tree.bind frame name initial needsBox = some (binding, after)) :
    tree.Grows after ∧ ∀ id, id ≠ frame → KeepsNames id tree after := by
  obtain ⟨_, bindings, size, ⟨held, found, changed⟩, others⟩ := bind_some bound
  refine ⟨⟨Nat.le_of_eq size.symm, ?_, keepsBindings_push bindings⟩, ?_⟩
  · intro id present exists_
    by_cases same : id = frame
    · subst same
      rw [found] at exists_
      cases exists_
      exact ⟨_, changed, rfl, rfl, List.prefix_rfl, rfl, fun known => known⟩
    · exact ⟨present, (others id same).trans exists_, (Frame.Fills.refl present).grows⟩
  · intro id differs present exists_
    exact ⟨present, (others id differs).trans exists_, rfl, rfl⟩

end FrameTree

/-! ### Steps and runs -/

theorem Effect.grows {frame : FrameId} {node : Node Expr} {before after : FrameTree}
    (effect : Effect frame node before after) :
    before.Grows after ∧ ∀ id, FrameTree.KeepsNames id before after := by
  cases effect with
  | lifts _ _ lifts => exact ⟨lifts.fills.grows, fun _ => lifts.fills.keepsNames⟩
  | uses _ _ _ captured noted =>
    have fills := FrameTree.use_fills captured noted
    exact ⟨fills.grows, fun _ => fills.keepsNames⟩
  | recurs _ _ _ taken marked =>
    have fills := FrameTree.captureSelf_fills taken
    obtain ⟨_, rfl⟩ | ⟨_, updated⟩ := marked
    · exact ⟨fills.grows, fun _ => fills.keepsNames⟩
    · obtain ⟨grows, keeps⟩ :=
        FrameTree.updateFunction_grows FnContext.markNamed_notes updated
      exact ⟨fills.grows.trans grows, fun id => fills.keepsNames.trans (keeps id)⟩

theorem Ends.grows {node : Node Expr} {before after : Store} (ends : Ends node before after) :
    before.tree.Grows after.tree ∧ ∀ id, FrameTree.KeepsNames id before.tree after.tree := by
  cases ends with
  | jump jumped marked => exact FrameTree.updateFunction_grows FnContext.markTail_notes marked
  | idle stays => exact ⟨.refl _, fun _ => .refl⟩

/-- A node opens no frames itself. -/
theorem Effect.frames_size {frame : FrameId} {node : Node Expr} {before after : FrameTree}
    (effect : Effect frame node before after) : after.frames.size = before.frames.size := by
  cases effect with
  | lifts _ _ lifts => exact lifts.size
  | uses _ _ _ captured noted =>
    exact (FrameTree.use_fills captured noted).size
  | recurs _ _ _ taken marked =>
    have size := (FrameTree.captureSelf_fills taken).size
    obtain ⟨_, rfl⟩ | ⟨_, updated⟩ := marked
    · exact size
    · obtain ⟨_, _, _, size', _⟩ := FrameTree.updateFrame_some updated
      exact size'.trans size

theorem Ends.frames_size {node : Node Expr} {before after : Store} (ends : Ends node before after) :
    after.tree.frames.size = before.tree.frames.size := by
  cases ends with
  | jump _ marked =>
    obtain ⟨_, _, _, size, _⟩ := FrameTree.updateFrame_some marked
    exact size
  | idle => rfl

/-- What is bound: an unqualified name, in the current frame. -/
theorem Binds.bound {frame : FrameId} {binding : BindingId} {how : Introduction}
    {before after : FrameTree} (binds : Binds frame binding how before after) :
    ∃ name initial needsBox, name.isQualified = false ∧
      before.bind frame name initial needsBox = some (binding, after) := by
  cases binds with
  | bare plain bound => exact ⟨_, _, _, plain, bound⟩
  | initial plain judged bound => exact ⟨_, _, _, plain, bound⟩

theorem Binds.grows {frame : FrameId} {binding : BindingId} {how : Introduction}
    {before after : FrameTree} (binds : Binds frame binding how before after) :
    before.Grows after ∧ ∀ id, id ≠ frame → FrameTree.KeepsNames id before after := by
  obtain ⟨_, _, _, _, bound⟩ := binds.bound
  exact FrameTree.bind_grows bound

/-- Counting changes the frame of the loop alone, and fills in what was not known of it. -/
theorem Counts.counted {frame : FrameId} {arity : Nat} {before after : FrameTree}
    (counts : Counts frame arity before after) :
    ∃ held, before.frame? frame = some held ∧ held.kind = .loop ∧ held.loopArity? = none ∧
      after.bindings = before.bindings ∧ after.frames.size = before.frames.size ∧
      after.frame? frame = some (held.fillLoop arity) ∧
      ∀ id, id ≠ frame → after.frame? id = before.frame? id := by
  obtain ⟨found, kind, unset, counted⟩ := counts
  obtain ⟨held, found', bindings, size, changed, others⟩ := FrameTree.updateFrame_some counted
  cases found.symm.trans found'
  exact ⟨_, found, kind, unset, bindings, size, changed, others⟩

theorem Counts.bindings {frame : FrameId} {arity : Nat} {before after : FrameTree}
    (counts : Counts frame arity before after) : after.bindings = before.bindings := by
  obtain ⟨_, _, _, _, bindings, _⟩ := counts.counted
  exact bindings

theorem Counts.grows {frame : FrameId} {arity : Nat} {before after : FrameTree}
    (counts : Counts frame arity before after) :
    before.Grows after ∧ ∀ id, id ≠ frame → FrameTree.KeepsNames id before after := by
  obtain ⟨_, _, _, counted⟩ := counts
  obtain ⟨_, _, _, _, _, others⟩ := FrameTree.updateFrame_some counted
  exact ⟨FrameTree.fillLoop_grows counted, fun id differs held present =>
    ⟨held, (others id differs).trans present, rfl, rfl⟩⟩

namespace Step

/-- Whether a step binds a name in the current frame. -/
def isBind : Step → Bool
  | bind .. => true
  | _ => false

/-- Whether a step binds or counts names in the current frame. -/
def isOwn : Step → Bool
  | bind .. | count .. => true
  | _ => false

theorem isBind_eq_false {step : Step} (other : step.isOwn = false) : step.isBind = false := by
  cases step <;> first | rfl | cases other

end Step

/-- The number of names that a script counts in its own frame. -/
def countedBy (steps : List Step) : Option Nat :=
  steps.findSome? fun
    | .count _ arity => some arity
    | _ => none

@[simp] theorem countedBy_append (first second : List Step) :
    countedBy (first ++ second) = (countedBy first).or (countedBy second) :=
  List.findSome?_append

@[simp] theorem countedBy_map_bind {γ : Type} (how : Introduction) (items : List γ)
    (pick : γ → BindingId) : countedBy (items.map fun item => .bind (pick item) how) = none := by
  simp [countedBy]

@[simp] theorem countedBy_map_visit {γ : Type} (place : Place) (items : List γ) (pick : γ → Expr) :
    countedBy (items.map fun item => .visit place (pick item)) = none := by
  simp [countedBy]

@[simp] theorem countedBy_visit (place : Place) (expr : Expr) :
    countedBy [.visit place expr] = none := rfl

@[simp] theorem countedBy_bind (binding : BindingId) (how : Introduction) (steps : List Step) :
    countedBy (.bind binding how :: steps) = countedBy steps := rfl

@[simp] theorem countedBy_countScript (isLoop : Bool) (frame : FrameId) (arity : Nat) :
    countedBy (countScript isLoop frame arity) = if isLoop then some arity else none := by
  cases isLoop <;> rfl

@[simp] theorem countedBy_pairs (isLoop : Bool) (pairs : List (BindingId × Expr)) :
    countedBy (pairScript isLoop pairs) = none := by
  refine List.findSome?_eq_none_iff.mpr fun step member => ?_
  obtain ⟨pair, _, inside⟩ := List.mem_flatMap.mp member
  obtain rfl | inside := List.mem_cons.mp inside
  · rfl
  · cases List.mem_singleton.mp inside
    rfl

/-- A node binds and counts names in frames of its own only. -/
theorem Node.isOwn_script {place : Place} {node : Node Expr} {step : Step}
    (member : step ∈ node.script place) : step.isOwn = false := by
  have sequence (items : List Expr) (inside : step ∈ sequenceScript place items) :
      step.isOwn = false := by
    induction items using sequenceScript.induct with
    | case1 => cases inside
    | case2 last =>
      cases List.mem_singleton.mp inside
      rfl
    | case3 first rest _ ih =>
      rw [sequenceScript] at inside
      · obtain rfl | inside := List.mem_cons.mp inside
        · rfl
        · exact ih inside
      · assumption
  cases node with
  | sequence items => exact sequence items member
  | recur args target =>
    cases target <;>
    · obtain ⟨_, _, rfl⟩ := List.mem_map.mp member
      rfl
  | function | call | lets | letfns | branch | guarded | dispatch =>
    simp only [script, Arity.block, Handler.block, List.mem_map, List.mem_cons, List.mem_append,
      Option.mem_toList, List.not_mem_nil, or_false] at member
    grind [Step.isOwn]
  | _ =>
    obtain ⟨_, _, rfl⟩ := List.mem_map.mp member
    rfl

namespace Enacts

variable {config : Config} {frame : FrameId} {steps : List Step} {before after : Store}

/-- A run takes nothing back. -/
theorem grows (run : Enacts config frame steps before after) : before.tree.Grows after.tree := by
  induction run with
  | done => exact .refl _
  | bind binds _ ih => exact binds.grows.1.trans ih
  | count counts _ ih => exact counts.grows.1.trans ih
  | block opened _ _ _ inside rest =>
    exact (FrameTree.enter_grows opened).1.trans (inside.trans rest)
  | visit _ begins _ ends _ follows rest =>
    exact begins.effect.grows.1.trans (follows.trans (ends.grows.1.trans rest))

/-- A run binds and counts no names but in frames of its own and, if its script says so, in the current
one. -/
theorem keepsNames (run : Enacts config frame steps before after) {id : FrameId}
    (old : id < before.tree.frames.size)
    (unbound : id = frame → ∀ step ∈ steps, step.isOwn = false) :
    FrameTree.KeepsNames id before.tree after.tree := by
  induction run with
  | done => exact .refl
  | bind binds _ ih =>
    -- The current frame cannot be meant, as the script binds a name in it.
    have elsewhere : id ≠ _ := fun same => by
      have := unbound same _ (List.mem_cons_self ..)
      cases this
    have size := binds.grows.1.size
    exact (binds.grows.2 id elsewhere).trans
      (ih (Nat.lt_of_lt_of_le old size) fun same => absurd same elsewhere)
  | count counts _ ih =>
    have elsewhere : id ≠ _ := fun same => by
      have := unbound same _ (List.mem_cons_self ..)
      cases this
    have size := counts.grows.1.size
    exact (counts.grows.2 id elsewhere).trans
      (ih (Nat.lt_of_lt_of_le old size) fun same => absurd same elsewhere)
  | block opened _ within _ inside rest =>
    have ⟨grows, keeps⟩ := FrameTree.enter_grows opened
    -- Names that are bound inside belong to the new frame.
    have stillOld := Nat.lt_of_lt_of_le old grows.size
    have elsewhere := Nat.ne_of_lt ((FrameTree.enter_some opened).1 ▸ old)
    refine (keeps id old).trans ((inside stillOld fun same => absurd same elsewhere).trans
      (rest (Nat.lt_of_lt_of_le stillOld within.grows.size) ?_))
    exact fun same step member => unbound same step (List.mem_cons_of_mem _ member)
  | visit _ begins within ends _ follows rest =>
    have ⟨grows, keeps⟩ := begins.effect.grows
    have begun := Nat.lt_of_lt_of_le old grows.size
    have followed := Nat.lt_of_lt_of_le begun within.grows.size
    have ended := Nat.lt_of_lt_of_le followed ends.grows.1.size
    -- The script of a node binds names in new frames only, so its frame keeps its names.
    have script := follows begun fun _ _ member => Node.isOwn_script member
    refine (keeps id).trans (script.trans ((ends.grows.2 id).trans (rest ended ?_)))
    exact fun same step member => unbound same step (List.mem_cons_of_mem _ member)

/-- A script that is carried out in a frame leaves the number of names that the frame had, or the one
that it counts. -/
theorem counted (run : Enacts config frame steps before after) {held : Frame}
    (found : before.tree.frame? frame = some held) :
    ∃ last, after.tree.frame? frame = some last ∧
      last.loopArity? = held.loopArity?.or (countedBy steps) := by
  induction run generalizing held with
  | done => exact ⟨held, found, by simp [countedBy]⟩
  | bind binds _ ih =>
    obtain ⟨_, _, _, _, bound⟩ := binds.bound
    obtain ⟨_, _, _, ⟨_, found', changed⟩, _⟩ := FrameTree.bind_some bound
    cases found.symm.trans found'
    obtain ⟨last, found, counted⟩ := ih changed
    exact ⟨last, found, counted⟩
  | count counts _ ih =>
    -- The number was unset before, and is not changed any more.
    obtain ⟨_, found', _, unset, _, _, changed, _⟩ := counts.counted
    cases found.symm.trans found'
    obtain ⟨last, found, same⟩ := ih changed
    exact ⟨last, found, by rw [same, unset]; rfl⟩
  | block opened _ within _ _ rest =>
    -- Inside the block another frame is the current one.
    have old := FrameTree.frame?_lt found
    have elsewhere := Nat.ne_of_lt ((FrameTree.enter_some opened).1 ▸ old)
    have ⟨grows, keeps⟩ := FrameTree.enter_grows opened
    obtain ⟨first, found, _, same⟩ := ((keeps _ old).trans (within.keepsNames
      (Nat.lt_of_lt_of_le old grows.size) fun here => absurd here elsewhere)) _ found
    obtain ⟨last, found, counted⟩ := rest found
    exact ⟨last, found, by rw [counted, same]; rfl⟩
  | visit _ begins within ends _ _ rest =>
    obtain ⟨first, found, _, same⟩ := begins.effect.grows.2 _ _ found
    obtain ⟨second, found, _, same'⟩ := ((within.keepsNames (FrameTree.frame?_lt found)
      fun _ _ member => Node.isOwn_script member).trans (ends.grows.2 _)) _ found
    obtain ⟨last, found, counted⟩ := rest found
    exact ⟨last, found, by rw [counted, same', same]; rfl⟩

/-- A frame that a run opens stands in the current frame or in one that the run has opened. -/
theorem exists_parent (run : Enacts config frame steps before after) {id : FrameId}
    (new : before.tree.frames.size ≤ id) (old : id < after.tree.frames.size) :
    ∃ last parent, after.tree.frame? id = some last ∧ last.parent = some parent ∧
      (parent = frame ∨ before.tree.frames.size ≤ parent) := by
  -- A frame keeps its parent.
  have keeps {first second : FrameTree} (grows : first.Grows second) {P : FrameId → Prop}
      (found : ∃ held parent, first.frame? id = some held ∧ held.parent = some parent ∧ P parent) :
      ∃ held parent, second.frame? id = some held ∧ held.parent = some parent ∧ P parent := by
    obtain ⟨held, parent, found, above, stands⟩ := found
    obtain ⟨grown, found, same⟩ := grows.frames id held found
    exact ⟨grown, parent, found, same.parent.trans above, stands⟩
  induction run with
  | done => exact absurd old (Nat.not_lt.mpr new)
  | bind binds _ ih =>
    obtain ⟨_, _, _, _, bound⟩ := binds.bound
    have size := (FrameTree.bind_some bound).2.2.1
    rw [← size] at new ⊢
    exact ih new old
  | count counts _ ih =>
    obtain ⟨_, _, _, _, _, size, _⟩ := counts.counted
    rw [← size] at new ⊢
    exact ih new old
  | @block _ _ _ _ _ _ inner _ between _ opened _ within follows inside rest =>
    obtain ⟨next, _, size, first, _⟩ := FrameTree.enter_some opened
    by_cases early : id < between.tree.frames.size
    · refine keeps follows.grows ?_
      rcases Nat.eq_or_lt_of_le (next ▸ new) with rfl | later
      · exact keeps within.grows ⟨_, _, first, rfl, .inl rfl⟩
      · obtain ⟨last, parent, held, above, stands⟩ := inside (by rw [size, ← next]; exact later) early
        refine ⟨last, parent, held, above, .inr ?_⟩
        rcases stands with rfl | further
        · exact Nat.le_of_eq next.symm
        · simp only [size] at further
          omega
    · obtain ⟨last, parent, held, above, stands⟩ := rest (Nat.not_lt.mp early) old
      refine ⟨last, parent, held, above, stands.imp_right fun further => ?_⟩
      have grown := within.grows.size
      simp only [size] at grown
      omega
  | @visit _ _ _ _ _ _ followed ended _ _ begins within ends remains follows rest =>
    have begun := begins.effect.frames_size
    by_cases early : id < followed.tree.frames.size
    · rw [← begun] at new ⊢
      exact keeps (ends.grows.1.trans remains.grows) (follows new early)
    · have same := ends.frames_size
      obtain ⟨last, parent, held, above, stands⟩ :=
        rest (Nat.le_trans (Nat.le_of_eq same) (Nat.not_lt.mp early)) old
      refine ⟨last, parent, held, above, stands.imp_right fun further => ?_⟩
      have grown := within.grows.size
      omega

end Enacts

end LispScope
