import LispScope.Proofs.Likeness
import LispScope.Proofs.Marking

/-!
# Operations on alike trees

What an operation does to a tree it does to every tree that is alike: it fails on both, or gives the
same numbers and trees that are alike again. Only the notes of uses look at what the trees may differ
in, and there the trees have to be settled: a use that is boxed in both runs marks the same bindings,
apart from those that are marked already.
-/
namespace LispScope

open Relation (ReflTransGen)

variable {allow : Tolerance}

theorem optionRel_bind {R : α → β → Prop} {S : γ → δ → Prop} {first : Option α} {second : Option β}
    {next : α → Option γ} {next' : β → Option δ} (related : Option.Rel R first second)
    (step : ∀ item other, R item other → Option.Rel S (next item) (next' other)) :
    Option.Rel S (first.bind next) (second.bind next') := by
  cases related with
  | some held => exact step _ _ held
  | none => exact .none

theorem optionRel_refl (item : Option α) : Option.Rel Eq item item := by
  cases item with
  | some value => exact .some rfl
  | none => exact .none

/-! ### Frames and lineages -/

namespace Frame.Alike

variable {first second : Frame}

theorem isFunction_eq (alike : Frame.Alike allow first second) :
    second.isFunction = first.isFunction := by
  rw [isFunction, isFunction, alike.kind]

theorem isNamed_eq (alike : Frame.Alike allow first second) (name : String) :
    second.isNamed name = first.isNamed name := by
  have contexts := alike.function?
  rw [isNamed, isNamed]
  generalize first.function? = context, second.function? = context' at contexts
  cases contexts with
  | some held =>
    cases held with
    | mk context names => rfl
  | none => rfl

theorem self?_eq (alike : Frame.Alike allow first second) (id : FrameId) (name : Symbol) :
    second.self? id name = first.self? id name := by
  rw [self?, self?, alike.isNamed_eq]

theorem binding?_eq (alike : Frame.Alike allow first second) (allowCaptures : Bool) (name : Symbol) :
    second.binding? allowCaptures name = first.binding? allowCaptures name := by
  rw [binding?, binding?, alike.locals, alike.captures]

/-- A note on a function is made whatever its identifier is. -/
theorem updateFunction {change : FnContext → FnContext} (alike : Frame.Alike allow first second)
    (notes : FnContext.Notes change)
    (uniform : ∀ context uniqueName,
      change { context with uniqueName } = { change context with uniqueName }) :
    Frame.Alike allow (first.updateFunction change) (second.updateFunction change) := by
  obtain ⟨kind, parent, locals, captures, vars, constants, contexts, arity⟩ := alike
  refine ⟨kind, parent, locals, captures, vars, constants, ?_, arity⟩
  rw [Frame.updateFunction, Frame.updateFunction]
  dsimp only
  generalize first.function? = context, second.function? = context' at contexts
  cases contexts with
  | none => exact .none
  | @some context _ held =>
    cases held with
    | @mk uniqueName _ names =>
      have same : (change context).outline.uniqueName = context.outline.uniqueName := by
        rw [notes.outline]
      refine .some ?_
      rw [uniform context uniqueName]
      exact .mk _ (same.symm ▸ names)

end Frame.Alike

namespace Lineage

/-- The same path through alike frames. -/
def Alike (allow : Tolerance) (first second : Lineage) : Prop :=
  List.Forall₂ (Keyed (Frame.Alike allow)) first second

variable {first second : Lineage}

theorem Alike.search_eq {ask : FrameId → Frame → Option α} (alike : Alike allow first second)
    (same : ∀ id frame frame', Frame.Alike allow frame frame' → ask id frame' = ask id frame) :
    Lineage.search ask second = Lineage.search ask first := by
  induction alike with
  | nil => rfl
  | cons entries _ ih =>
    cases entries with
    | mk id frames =>
      have crosses : cross (α := α) id = fun frame found =>
          if frame.isFunction then { found with crossed := id :: found.crossed } else found := rfl
      simp only [Lineage.search, same id _ _ frames, ih, crosses, frames.isFunction_eq]

theorem Alike.resolve_eq (alike : Alike allow first second) (name : Symbol) :
    Lineage.resolve second name = Lineage.resolve first name := by
  rw [Lineage.resolve, Lineage.resolve, alike.search_eq]
  intro id frame frame' frames
  rw [frames.binding?_eq, frames.self?_eq]

theorem Alike.closestFunction_eq (alike : Alike allow first second) :
    Lineage.closestFunction second = Lineage.closestFunction first := by
  induction alike with
  | nil => rfl
  | cons entries rest ih =>
    cases entries with
    | mk id frames =>
      cases rest with
      | nil => rfl
      | cons entries' rest =>
        cases entries' with
        | mk id' frames' => simp only [Lineage.closestFunction, frames.isFunction_eq, ih]

/-- A `recur` has the same target from alike frames. -/
theorem Alike.recurTarget_eq (alike : Alike allow first second) :
    recurTarget second = recurTarget first := by
  induction alike with
  | nil => rfl
  | cons entries _ ih =>
    cases entries with
    | mk id frames =>
      have contexts := frames.function?
      rw [recurTarget, recurTarget, ← frames.kind, ← frames.loopArity?, ih]
      generalize Frame.function? _ = context at contexts
      generalize Frame.function? _ = context' at contexts
      cases contexts with
      | none => rfl
      | some held =>
        cases held with
        | mk context names => rfl

end Lineage

/-! ### Frames and bindings of a tree -/

/-- What two alike blocks open their frames as. -/
structure Opening.Alike (allow : Tolerance) (first second : Opening) : Prop where
  kind : first.kind = second.kind
  function? : Option.Rel (FnContext.Alike allow) first.function? second.function?

theorem Opening.Alike.plain {opening : Opening} (plain : opening.function? = none) :
    Opening.Alike allow opening opening :=
  ⟨rfl, by rw [plain]; exact .none⟩

/-- Alike bindings stay alike if their flags do. -/
theorem Binding.Alike.of_agrees {first second first' second' : Binding}
    (alike : Binding.Alike allow first second) (agrees : first.Agrees first')
    (agrees' : second.Agrees second') (boxes : allow.Flag first'.needsBox second'.needsBox)
    (marks : allow.Flag first'.hasBoxedUse second'.hasBoxedUse)
    (unboxed : allow.Flag second'.hasUnboxedUse first'.hasUnboxedUse) :
    Binding.Alike allow first' second' := by
  refine ⟨?_, ?_, ?_, ?_, boxes, marks, unboxed⟩
  · rw [agrees.name, agrees'.name, alike.name]
  · rw [agrees.frame, agrees'.frame, alike.frame]
  · rw [agrees.initial, agrees'.initial]
    exact alike.initial
  · rw [agrees.capturedFrom, agrees'.capturedFrom, alike.capturedFrom]

namespace FrameTree.Alike

variable {first second : FrameTree} {id : FrameId}

theorem climb (alike : FrameTree.Alike allow first second) (steps : Nat) (id : FrameId) :
    Option.Rel (Lineage.Alike allow) (first.climb steps id) (second.climb steps id) := by
  induction steps generalizing id with
  | zero => exact .none
  | succ steps ih =>
    refine optionRel_bind (alike.frames id) fun frame frame' frames => ?_
    rw [← frames.parent]
    cases frame.parent with
    | none => exact .some (.cons (.mk id frames) .nil)
    | some parent => exact optionRel_bind (ih parent) fun _ _ outer => .some (.cons (.mk id frames) outer)

theorem lineage (alike : FrameTree.Alike allow first second) (id : FrameId) :
    Option.Rel (Lineage.Alike allow) (first.lineage id) (second.lineage id) := by
  rw [FrameTree.lineage, FrameTree.lineage, alike.frames_size]
  exact alike.climb _ id

theorem closestFunction_eq (alike : FrameTree.Alike allow first second) (id : FrameId) :
    second.closestFunction id = first.closestFunction id := by
  have lineages := alike.lineage id
  rw [FrameTree.closestFunction, FrameTree.closestFunction]
  generalize first.lineage id = lineage, second.lineage id = lineage' at lineages
  cases lineages with
  | some held => exact held.closestFunction_eq
  | none => rfl

theorem updateFrame {change change' : Frame → Frame} (alike : FrameTree.Alike allow first second)
    (changes : ∀ held held', first.frame? id = some held → second.frame? id = some held' →
      Frame.Alike allow held held' → Frame.Alike allow (change held) (change' held')) :
    Option.Rel (FrameTree.Alike allow) (first.updateFrame id change)
      (second.updateFrame id change') := by
  rw [FrameTree.updateFrame, FrameTree.updateFrame, alike.frames_size]
  split
  next inRange =>
    refine .some ⟨fun other => ?_, alike.bindings⟩
    have here := alike.frames other
    simp only [frame?, Array.getElem?_modify] at here changes ⊢
    by_cases same : id = other
    · subst same
      rw [if_pos rfl, if_pos rfl]
      generalize first.frames[id]? = held, second.frames[id]? = held' at here changes
      cases here with
      | some frames => exact .some (changes _ _ rfl rfl frames)
      | none => exact .none
    · rw [if_neg same, if_neg same]
      exact here
  next => exact .none

/-- Trees stay alike when alike bindings are added at their ends. -/
theorem push {binding binding' : Binding} (alike : FrameTree.Alike allow first second)
    (bindings : Binding.Alike allow binding binding') :
    FrameTree.Alike allow { first with bindings := first.bindings.push binding }
      { second with bindings := second.bindings.push binding' } := by
  refine ⟨alike.frames, fun other => ?_⟩
  have here := alike.bindings other
  simp only [binding?, Array.getElem?_push, alike.bindings_size] at here ⊢
  split
  · exact .some bindings
  · exact here

theorem enter {opening opening' : Opening} (alike : FrameTree.Alike allow first second)
    (openings : Opening.Alike allow opening opening') (parent : FrameId) :
    Keyed (FrameTree.Alike allow) (first.enter opening parent) (second.enter opening' parent) := by
  rw [FrameTree.enter, FrameTree.enter, alike.frames_size]
  refine .mk _ ⟨fun other => ?_, alike.bindings⟩
  have here := alike.frames other
  simp only [frame?, Array.getElem?_push, alike.frames_size] at here ⊢
  split
  · exact .some ⟨openings.kind, rfl, rfl, rfl, .nil, .nil, openings.function?, rfl⟩
  · exact here

theorem bind {name : Symbol} {initial initial' : Option Expr} {needsBox needsBox' : Bool}
    (alike : FrameTree.Alike allow first second)
    (values : Option.Rel (Expr.Alike allow) initial initial')
    (flags : allow.Flag needsBox needsBox') (frame : FrameId) :
    Option.Rel (Keyed (FrameTree.Alike allow)) (first.bind frame name initial needsBox)
      (second.bind frame name initial' needsBox') := by
  rw [FrameTree.bind, FrameTree.bind, alike.bindings_size]
  refine optionRel_bind (alike.updateFrame ?_) fun tree tree' trees => .some (.mk _ (trees.push ?_))
  · intro held held' _ _ frames
    exact { frames with locals := by rw [frames.locals] }
  · exact ⟨rfl, rfl, values, rfl, flags, .refl _, .refl _⟩

/-! ### Captures -/

theorem copyInto (alike : FrameTree.Alike allow first second) (name : Symbol) (source : BindingId)
    (frame : FrameId) : Option.Rel (Keyed (Keyed (FrameTree.Alike allow)))
      (first.copyInto name source frame) (second.copyInto name source frame) := by
  refine optionRel_bind (alike.frames frame) fun held held' frames => ?_
  rw [← frames.captures, alike.bindings_size]
  cases present : held.captures.get? name with
  | some copy =>
    rw [Registry.getOrInsert_of_some present]
    exact .some (.mk copy (.mk false alike))
  | none =>
    rw [Registry.getOrInsert_of_none present]
    refine optionRel_bind (alike.updateFrame ?_) fun tree tree' trees =>
      .some (.mk _ (.mk true (trees.push ?_)))
    · intro kept kept' _ _ frames
      exact { frames with captures := rfl }
    · exact ⟨rfl, rfl, .none, rfl, .refl _, .refl _, .refl _⟩

theorem copyIntoAll (alike : FrameTree.Alike allow first second) (name : Symbol)
    (source : BindingId) (frames : List FrameId) :
    Option.Rel (Keyed (Keyed (FrameTree.Alike allow)))
      (first.copyIntoAll name source frames) (second.copyIntoAll name source frames) := by
  induction frames generalizing first second with
  | nil => exact .some (.mk [] (.mk false alike))
  | cons frame frames ih =>
    refine optionRel_bind (alike.copyInto name source frame) fun head head' heads => ?_
    obtain ⟨copy, made, trees⟩ := heads
    refine optionRel_bind (ih trees) fun rest rest' rests => ?_
    obtain ⟨copies, more, trees⟩ := rests
    exact .some (.mk _ (.mk _ trees))

theorem takeAlong (alike : FrameTree.Alike allow first second) (target : FrameId)
    (captures : List (Symbol × BindingId)) :
    Option.Rel (FrameTree.Alike allow) (first.takeAlong target captures)
      (second.takeAlong target captures) := by
  induction captures generalizing first second with
  | nil => exact .some alike
  | cons entry captures ih =>
    refine optionRel_bind (alike.copyInto entry.1 entry.2 target) fun head head' heads => ?_
    obtain ⟨copy, made, trees⟩ := heads
    exact ih trees

theorem captureSelf (alike : FrameTree.Alike allow first second) (frame : FrameId)
    (found : Found FrameId) : Option.Rel (FrameTree.Alike allow) (first.captureSelf frame found)
      (second.captureSelf frame found) := by
  rw [FrameTree.captureSelf, FrameTree.captureSelf]
  split
  next => exact .some alike
  next =>
    rw [alike.closestFunction_eq]
    refine optionRel_bind (optionRel_refl _) ?_
    rintro target _ rfl
    refine optionRel_bind (alike.frames found.target) fun source source' sources => ?_
    rw [← sources.captures]
    exact alike.takeAlong target source.captures.entries

/-! ### Uses -/

theorem aliased_eq (alike : FrameTree.Alike allow first second) :
    Aliased second.bindings = Aliased first.bindings := by
  funext id other
  have here := alike.bindings id
  simp only [binding?, Aliased] at here ⊢
  generalize first.bindings[id]? = held, second.bindings[id]? = held' at here
  cases here with
  | some bindings => simp [bindings.aliases_eq]
  | none => simp

/-- A binding after a use that is boxed in the second run only if it is so in the first one. -/
theorem noteUse_binding {after after' : FrameTree} {boxed boxed' : Bool} {id other : BindingId}
    {before before' : Binding} (alike : FrameTree.Alike allow first second)
    (settled : first.Settled) (settled' : second.Settled) (flags : allow.Flag boxed boxed')
    (noted : first.noteUse id boxed = some after) (noted' : second.noteUse id boxed' = some after')
    (held : first.binding? other = some before) (held' : second.binding? other = some before')
    (bindings : Binding.Alike allow before before') :
    Option.Rel (Binding.Alike allow) (after.binding? other) (after'.binding? other) := by
  cases boxed' with
  | true =>
    -- Boxed in both runs: the use flows on to the same bindings.
    cases flags.1 rfl
    obtain ⟨now, found, agrees, marked, needs, unboxed⟩ := noteUse_boxed settled noted held
    obtain ⟨now', found', agrees', marked', needs', unboxed'⟩ := noteUse_boxed settled' noted' held'
    rw [alike.aliased_eq] at marked'
    have marks := bindings.hasBoxedUse.or marked marked' (fun flows => flows) fun _ flows => flows
    have boxes := bindings.needsBox.or needs needs' marks.1 marks.2
    rw [found, found']
    refine .some (bindings.of_agrees agrees agrees' boxes marks ?_)
    rw [unboxed, unboxed']
    exact bindings.hasUnboxedUse
  | false =>
    obtain ⟨now', found', agrees', marked', needs', unboxed'⟩ := noteUse_unboxed noted' held'
    cases boxed with
    | true =>
      -- Boxed in the first run only, which the tolerance has to allow.
      have loose (exact_ : allow.unboxes = false) : False := Bool.noConfusion (flags.2 exact_ rfl)
      obtain ⟨now, found, agrees, marked, needs, unboxed⟩ := noteUse_boxed settled noted held
      have stays {flag : Bool} : flag = true ↔ flag = true ∨ False := (or_false _).symm.to_iff
      rw [found, found']
      refine .some (bindings.of_agrees agrees agrees' ?_ ?_ ?_)
      · rw [needs']
        exact bindings.needsBox.or needs stays False.elim fun exact_ => (loose exact_).elim
      · rw [marked']
        exact bindings.hasBoxedUse.or marked stays False.elim fun exact_ => (loose exact_).elim
      · rw [unboxed]
        exact bindings.hasUnboxedUse.or unboxed' stays False.elim fun exact_ => (loose exact_).elim
    | false =>
      obtain ⟨now, found, agrees, marked, needs, unboxed⟩ := noteUse_unboxed noted held
      rw [found, found']
      refine .some (bindings.of_agrees agrees agrees' ?_ ?_ ?_)
      · rw [needs, needs']
        exact bindings.needsBox
      · rw [marked, marked']
        exact bindings.hasBoxedUse
      · exact bindings.hasUnboxedUse.or unboxed' unboxed (fun same => same) fun _ same => same

/-- A use that is boxed in the second run only if it is so in the first one leaves settled trees
alike. -/
theorem noteUse {boxed boxed' : Bool} (alike : FrameTree.Alike allow first second)
    (settled : first.Settled) (settled' : second.Settled) (flags : allow.Flag boxed boxed')
    (id : BindingId) : Option.Rel (FrameTree.Alike allow) (first.noteUse id boxed)
      (second.noteUse id boxed') := by
  by_cases inRange : id < first.bindings.size
  · obtain ⟨after, noted⟩ := settled.exists_noteUse inRange boxed
    obtain ⟨after', noted'⟩ := settled'.exists_noteUse (alike.bindings_size ▸ inRange) boxed'
    rw [noted, noted']
    refine .some ⟨fun frame => ?_, fun other => ?_⟩
    · rw [frame?, frame?, (noteUse_some noted).1, (noteUse_some noted').1]
      exact alike.frames frame
    have here := alike.bindings other
    cases held : first.binding? other with
    | none =>
      have outside : first.bindings.size ≤ other := Array.getElem?_eq_none_iff.mp held
      have gone : after.binding? other = none :=
        Array.getElem?_eq_none (by rw [noteUse_size noted]; exact outside)
      have gone' : after'.binding? other = none :=
        Array.getElem?_eq_none (by rw [noteUse_size noted', alike.bindings_size]; exact outside)
      rw [gone, gone']
      exact .none
    | some before =>
      rw [held] at here
      generalize held' : second.binding? other = now' at here
      cases here with
      | some bindings =>
        exact alike.noteUse_binding settled settled' flags noted noted' held held' bindings
  · have outside (tree : FrameTree) (boxed : Bool) (size : tree.bindings.size = first.bindings.size) :
        tree.noteUse id boxed = none := by
      cases boxed <;> simp [FrameTree.noteUse, spreadBoxedUse, size, inRange]
    rw [outside first boxed rfl, outside second boxed' alike.bindings_size]
    exact .none

theorem capture (alike : FrameTree.Alike allow first second) (settled : first.Settled)
    (settled' : second.Settled) (found : Found BindingId) :
    Option.Rel (Keyed (FrameTree.Alike allow)) (first.capture found) (second.capture found) := by
  refine optionRel_bind (alike.bindings found.target) fun source source' sources => ?_
  have copied := alike.copyIntoAll source.name found.target found.crossed
  rw [← sources.name]
  generalize copying : first.copyIntoAll source.name found.target found.crossed = result,
    copying' : second.copyIntoAll source.name found.target found.crossed = result' at copied
  cases copied with
  | none => exact .none
  | some held =>
    obtain ⟨copies, made, trees⟩ := held
    cases made with
    | false => exact .some (.mk _ trees)
    | true =>
      have settled := settled.captures (copyIntoAll_captures copying)
      have settled' := settled'.captures (copyIntoAll_captures copying')
      change Option.Rel _ (Option.bind (FrameTree.noteUse _ _ true) _)
        (Option.bind (FrameTree.noteUse _ _ true) _)
      refine optionRel_bind (trees.noteUse settled settled' (.refl true) found.target) ?_
      exact fun _ _ trees => .some (.mk _ trees)

/-- An initial value that can be kept unboxed in the first run can be so in the second. -/
theorem isUnboxable {expr expr' : Expr} (alike : FrameTree.Alike allow first second)
    (exprs : Expr.Alike allow expr expr') :
    Option.Rel (fun flag flag' => allow.Flag flag' flag) (first.isUnboxable expr)
      (second.isUnboxable expr') := by
  cases exprs with
  | mk nodes position span =>
    cases nodes with
    | literal value constants => exact .some (.refl _)
    | call heads items flags => exact .some flags
    | localRef name binding flags =>
      have here := alike.bindings binding
      simp only [FrameTree.isUnboxable]
      generalize first.binding? binding = held, second.binding? binding = held' at here
      cases here with
      | some bindings => exact .some bindings.needsBox.not
      | none => exact .none
    | _ => exact .some (.refl _)

end FrameTree.Alike

/-! ### Names and what is lifted -/

/-- A supply that has handed out more names. -/
def NameSupply.Alike (allow : Tolerance) (first second : NameSupply) : Prop :=
  second.issued = first.issued + allow.shift

theorem NameSupply.Alike.fresh {first second : NameSupply} (alike : first.Alike allow second)
    (name : String) : allow.Name (first.fresh name).1 (second.fresh name).1 ∧
      (first.fresh name).2.Alike allow (second.fresh name).2 := by
  have next : second.issued + 1 = first.issued + 1 + allow.shift := by
    rw [alike, Nat.add_right_comm]
  exact ⟨⟨Identifier.ofName name, first.issued + 1, rfl, by rw [← next]; rfl⟩, next⟩

/-- A name is drawn in both runs or in none. -/
theorem NameSupply.Alike.ite {first second drawn drawn' : NameSupply} {made made' : Bool}
    (alike : first.Alike allow second) (same : made = made') (moved : drawn.Alike allow drawn') :
    (if made then drawn else first).Alike allow (if made' then drawn' else second) := by
  subst same
  cases made with
  | true => exact moved
  | false => exact alike

namespace Registry.Alike

variable {κ : Type} [BEq κ] {R : α → β → Prop} {first : Registry κ α} {second : Registry κ β}

theorem get? (alike : Registry.Alike R first second) (key : κ) :
    Option.Rel R (first.get? key) (second.get? key) := by
  obtain ⟨entries⟩ := first
  obtain ⟨entries'⟩ := second
  change List.Forall₂ (Keyed R) entries entries' at alike
  simp only [Registry.get?]
  induction alike with
  | nil => exact .none
  | cons entry _ ih =>
    cases entry with
    | mk here related =>
      by_cases same : here == key
      · simpa [same] using related
      · simpa [same] using ih

/-- Alike registries have an equal key both or neither, and stay alike. -/
theorem getOrInsert {offered : α} {offered' : β} (alike : Registry.Alike R first second) (key : κ)
    (related : R offered offered') :
    R (first.getOrInsert key offered).1 (second.getOrInsert key offered').1 ∧
      (first.getOrInsert key offered).2.1 = (second.getOrInsert key offered').2.1 ∧
      Registry.Alike R (first.getOrInsert key offered).2.2 (second.getOrInsert key offered').2.2 := by
  have here := alike.get? key
  rw [Registry.getOrInsert, Registry.getOrInsert]
  generalize first.get? key = held, second.get? key = held' at here
  cases here with
  | some values => exact ⟨values, rfl, alike⟩
  | none => exact ⟨related, rfl, List.rel_append alike (.cons (.mk key related) .nil)⟩

end Registry.Alike

/-- An entry with the tree and the supply after it. -/
structure Lifted (R : α → β → Prop) (allow : Tolerance) (first : α × FrameTree × NameSupply)
    (second : β × FrameTree × NameSupply) : Prop where
  entry : R first.1 second.1
  tree : first.2.1.Alike allow second.2.1
  names : first.2.2.Alike allow second.2.2

namespace FrameTree.Alike

variable {first second : FrameTree} {supply supply' : NameSupply}

theorem liftVar (alike : FrameTree.Alike allow first second) (names : supply.Alike allow supply')
    (frame : FrameId) (name : Symbol) :
    Option.Rel (Lifted (LiftedVar.Alike allow) allow) (first.liftVar supply frame name)
      (second.liftVar supply' frame name) := by
  rw [FrameTree.liftVar, FrameTree.liftVar, alike.closestFunction_eq]
  refine optionRel_bind (optionRel_refl _) ?_
  rintro target _ rfl
  refine optionRel_bind (alike.frames target) fun held held' frames => ?_
  obtain ⟨drawn, moved⟩ := names.fresh name.text
  obtain ⟨entry, made, vars⟩ := frames.vars.getOrInsert name (LiftedVar.Alike.mk name drawn)
  refine optionRel_bind (alike.updateFrame ?_) fun tree tree' trees => .some ⟨entry, trees, ?_⟩
  · exact fun kept kept' _ _ frames => { frames with vars }
  · exact names.ite made moved

theorem liftConstant (alike : FrameTree.Alike allow first second) (names : supply.Alike allow supply')
    (frame : FrameId) (value : Datum) :
    Option.Rel (Lifted (LiftedConstant.Alike allow) allow) (first.liftConstant supply frame value)
      (second.liftConstant supply' frame value) := by
  rw [FrameTree.liftConstant, FrameTree.liftConstant, alike.closestFunction_eq]
  refine optionRel_bind (optionRel_refl _) ?_
  rintro target _ rfl
  refine optionRel_bind (alike.frames target) fun held held' frames => ?_
  obtain ⟨drawn, moved⟩ := names.fresh "const"
  obtain ⟨entry, made, constants⟩ :=
    frames.constants.getOrInsert value (LiftedConstant.Alike.mk value drawn)
  refine optionRel_bind (alike.updateFrame ?_) fun tree tree' trees => .some ⟨entry, trees, ?_⟩
  · exact fun kept kept' _ _ frames => { frames with constants }
  · exact names.ite made moved

end FrameTree.Alike

end LispScope
