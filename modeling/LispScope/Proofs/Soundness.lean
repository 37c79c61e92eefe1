import LispScope.Proofs.Path

/-!
# Sound trees

The tables of a tree fit together. A name in a frame leads to a binding of that name and frame,
which is no copy; a copy in a frame leads to a binding that is one, and only functions hold copies.
The source of a copy has the same name, was made before it and belongs to a frame further out.
Every run keeps a tree sound.
-/
namespace LispScope

namespace FrameTree

/-- A binding has a name, a frame and a source, if it is a copy. -/
def Entry (tree : FrameTree) (binding : BindingId) (name : Symbol) (frame : FrameId)
    (source : Option BindingId) : Prop :=
  ∃ held, tree.binding? binding = some held ∧ held.name = name ∧ held.frame = frame ∧
    held.capturedFrom = source

namespace Entry

variable {tree before after : FrameTree} {binding : BindingId} {name : Symbol} {frame : FrameId}
  {source : Option BindingId}

theorem keeps (keeps : before.KeepsBindings after) (entry : before.Entry binding name frame source) :
    after.Entry binding name frame source := by
  obtain ⟨held, found, rfl, rfl, rfl⟩ := entry
  obtain ⟨kept, found, agrees⟩ := keeps binding held found
  exact ⟨kept, found, agrees.name, agrees.frame, agrees.capturedFrom⟩

theorem back (keeps : before.KeepsBindings after)
    (count : after.bindings.size = before.bindings.size)
    (entry : after.Entry binding name frame source) : before.Entry binding name frame source := by
  obtain ⟨held, found, rfl, rfl, rfl⟩ := entry
  have inRange : binding < before.bindings.size := count ▸ binding?_lt found
  obtain ⟨kept, found', agrees⟩ := keeps binding _ (Array.getElem?_eq_getElem inRange)
  cases found.symm.trans found'
  exact ⟨_, Array.getElem?_eq_getElem inRange, agrees.name.symm, agrees.frame.symm,
    agrees.capturedFrom.symm⟩

theorem unique {other : Symbol} {outer : FrameId} {origin : Option BindingId}
    (entry : tree.Entry binding name frame source) (entry' : tree.Entry binding other outer origin) :
    other = name ∧ outer = frame ∧ origin = source := by
  obtain ⟨held, found, rfl, rfl, rfl⟩ := entry
  obtain ⟨held', found', rfl, rfl, rfl⟩ := entry'
  cases found.symm.trans found'
  exact ⟨rfl, rfl, rfl⟩

theorem lt (entry : tree.Entry binding name frame source) : binding < tree.bindings.size := by
  obtain ⟨held, found, _⟩ := entry
  exact binding?_lt found

/-- A new binding comes after all others. -/
theorem push_iff {new : Binding} (pushed : after.bindings = tree.bindings.push new) :
    after.Entry binding name frame source ↔
      (binding = tree.bindings.size ∧ new.name = name ∧ new.frame = frame ∧
        new.capturedFrom = source) ∨ tree.Entry binding name frame source := by
  have old : tree.Entry binding name frame source → binding ≠ tree.bindings.size :=
    fun entry => Nat.ne_of_lt entry.lt
  by_cases last : binding = tree.bindings.size
  · have absent : ¬ tree.Entry binding name frame source := fun entry => old entry last
    rw [or_iff_left absent]
    simp [Entry, binding?_push pushed, last]
  · simp [Entry, binding?_push pushed, last]

end Entry

/-- The tables of names, copies and bindings fit together. -/
structure Sound (tree : FrameTree) : Prop where
  ordered : tree.Ordered
  locals : ∀ id name binding, tree.bound? id name = some binding → tree.Entry binding name id none
  captures : ∀ id name copy, tree.copy? id name = some copy →
    tree.isFunction id = true ∧ ∃ source, tree.Entry copy name id (some source)
  distinct : ∀ id, ((tree.captured id).map Prod.fst).Nodup
  sources : ∀ copy name frame source, tree.Entry copy name frame (some source) →
    source < copy ∧ ∃ outer origin, tree.Entry source name outer origin ∧ outer < frame
  known : ∀ id frame, tree.frame? id = some frame → frame.function?.isSome = frame.isFunction

variable {tree before after : FrameTree} {id : FrameId}

/-- A copy is held under its name, and under no other. -/
theorem Sound.copy?_of_mem (sound : tree.Sound) {name : Symbol} {copy : BindingId}
    (member : (name, copy) ∈ tree.captured id) : tree.copy? id name = some copy := by
  have distinct := sound.distinct id
  rw [copy?_eq_find?]
  generalize tree.captured id = entries at member distinct
  induction entries with
  | nil => cases member
  | cons entry entries ih =>
    -- Names are distinct, so no earlier entry can have answered.
    rw [List.map_cons, List.nodup_cons] at distinct
    obtain rfl | member := List.mem_cons.mp member
    · simp
    · have differs : ¬ entry.1 = name := by
        rintro rfl
        exact distinct.1 (List.mem_map.mpr ⟨_, member, rfl⟩)
      rw [List.find?_cons_of_neg (by simpa using differs)]
      exact ih member distinct.2

theorem Sound.copy?_of_append (sound : after.Sound) {name : Symbol} {copy : BindingId}
    (appended : after.captured id = tree.captured id ++ [(name, copy)]) :
    after.copy? id name = some copy :=
  sound.copy?_of_mem (by simp [appended])

theorem mem_captured_of_copy? {name : Symbol} {copy : BindingId}
    (held : tree.copy? id name = some copy) : (name, copy) ∈ tree.captured id := by
  rw [copy?_eq_find?, Option.map_eq_some_iff] at held
  obtain ⟨⟨key, value⟩, found, rfl⟩ := held
  have same : key = name := by simpa using List.find?_some found
  subst same
  exact List.mem_of_find?_eq_some found

/-- Frames keep what is known of functions and whether they are those of functions. -/
theorem Grows.known (grows : before.Grows after)
    (old : ∀ id frame, after.frame? id = some frame →
      ∃ held, before.frame? id = some held ∧ frame.parent = held.parent)
    (known : ∀ id frame, before.frame? id = some frame → frame.function?.isSome = frame.isFunction) :
    ∀ id frame, after.frame? id = some frame → frame.function?.isSome = frame.isFunction := by
  intro id frame present
  obtain ⟨held, found, _⟩ := old id frame present
  obtain ⟨grown, found', same⟩ := grows.frames id held found
  cases present.symm.trans found'
  have outline := congrArg Option.isSome same.outline
  rw [Frame.outline?, Option.isSome_map, Frame.outline?, Option.isSome_map] at outline
  rw [outline, same.isFunction, known id held found]

/-- What leaves names, copies and sources alone leaves a tree sound. -/
theorem Sound.of_same (sound : before.Sound) (names : before.SameNames after)
    (captured : ∀ id, after.captured id = before.captured id) (grows : before.Grows after)
    (count : after.bindings.size = before.bindings.size) : after.Sound := by
  have keeps := grows.bindings
  constructor
  case ordered => exact names.ordered sound.ordered
  case locals =>
    intro id name binding bound
    exact (sound.locals id name binding (names.bound? id name ▸ bound)).keeps keeps
  case captures =>
    intro id name copy present
    rw [copy?_congr (captured id)] at present
    obtain ⟨function, source, entry⟩ := sound.captures id name copy present
    exact ⟨(names.isFunction id).trans function, source, entry.keeps keeps⟩
  case distinct =>
    intro id
    rw [captured id]
    exact sound.distinct id
  case sources =>
    intro copy name frame source entry
    obtain ⟨earlier, outer, origin, entry, outside⟩ :=
      sound.sources copy name frame source (entry.back keeps count)
    exact ⟨earlier, outer, origin, entry.keeps keeps, outside⟩
  case known => exact grows.known names.parent sound.known

theorem Sound.noteUse {binding : BindingId} {boxed : Bool} (sound : tree.Sound)
    (noted : tree.noteUse binding boxed = some after) : after.Sound :=
  sound.of_same (noteUse_fills noted).sameNames (noteUse_captured noted)
    (noteUse_fills noted).grows (noteUse_size noted)

theorem Sound.lifts (sound : tree.Sound) (lifts : tree.Lifts after) : after.Sound :=
  sound.of_same lifts.fills.sameNames lifts.captured lifts.fills.grows (by rw [lifts.bindings])

theorem Sound.updateFunction {change : FnContext → FnContext} {target : FrameId}
    (sound : tree.Sound) (notes : FnContext.Notes change)
    (updated : tree.updateFrame target (Frame.updateFunction change) = some after) :
    after.Sound := by
  have ⟨names, captured⟩ := updateFunction_sameNames notes updated
  have ⟨grows, _⟩ := updateFunction_grows notes updated
  obtain ⟨_, _, bindings, _⟩ := updateFrame_some updated
  exact sound.of_same names captured grows (by rw [bindings])

/-- A copy may be added to a function if its source stands further out. -/
theorem Sound.copies {name : Symbol} {source copy : BindingId} {outer : FrameId}
    {origin : Option BindingId} (sound : tree.Sound)
    (copies : Copies name source id copy tree after) (function : tree.isFunction id = true)
    (entry : tree.Entry source name outer origin) (outside : outer < id) : after.Sound := by
  have names := copies.fills.sameNames
  have keeps := copies.fills.bindings
  constructor
  case ordered => exact names.ordered sound.ordered
  case locals =>
    intro other asked binding bound
    exact (sound.locals other asked binding (names.bound? other asked ▸ bound)).keeps keeps
  case captures =>
    intro other asked binding present
    rw [copies.copy?] at present
    split at present
    next same =>
      obtain ⟨rfl, rfl⟩ := same
      cases present
      refine ⟨(names.isFunction _).trans function, source, ?_⟩
      exact (Entry.push_iff copies.bindings).mpr (.inl ⟨copies.next, rfl, rfl, rfl⟩)
    next =>
      obtain ⟨function, origin, entry⟩ := sound.captures other asked binding present
      exact ⟨(names.isFunction other).trans function, origin, entry.keeps keeps⟩
  case distinct =>
    intro other
    rw [copies.captured other]
    split
    next same =>
      subst same
      obtain ⟨held, present, absent, _⟩ := copies.added
      -- A copy is only made where the name had none, so the names stay distinct.
      have new : name ∉ (tree.captured other).map Prod.fst := by
        intro listed
        obtain ⟨⟨key, value⟩, member, rfl⟩ := List.mem_map.mp listed
        have := sound.copy?_of_mem member
        simp [FrameTree.copy?, present, absent] at this
      rw [List.map_append, List.nodup_append]
      refine ⟨sound.distinct other, by simp, ?_⟩
      intro key member last single same
      rw [same, List.mem_singleton.mp single] at member
      exact new member
    next => exact sound.distinct other
  case sources =>
    intro binding asked frame from_ entry'
    obtain ⟨rfl, rfl, rfl, same⟩ | old := (Entry.push_iff copies.bindings).mp entry'
    -- The new copy: its source was there before and stands further out.
    · cases same
      exact ⟨entry.lt, outer, origin, entry.keeps keeps, outside⟩
    · obtain ⟨earlier, outer, origin, entry, outside⟩ := sound.sources binding asked frame from_ old
      exact ⟨earlier, outer, origin, entry.keeps keeps, outside⟩
  case known => exact copies.fills.grows.known names.parent sound.known

theorem Sound.bind {frame : FrameId} {name : Symbol} {initial : Option Expr} {needsBox : Bool}
    {binding : BindingId} (sound : tree.Sound)
    (bound : tree.bind frame name initial needsBox = some (binding, after)) : after.Sound := by
  obtain ⟨bounds, captured, _, functions⟩ := bind_views bound
  obtain ⟨next, pushed, _, ⟨held, found, changed⟩, others⟩ := bind_some bound
  have keeps := (bind_grows bound).1.bindings
  constructor
  case ordered =>
    intro id now parent present above
    by_cases same : id = frame
    · subst same
      cases changed.symm.trans present
      exact sound.ordered id held parent found above
    · exact sound.ordered id now parent (others id same ▸ present) above
  case locals =>
    intro id asked other present
    rw [bounds] at present
    split at present
    next same =>
      obtain ⟨rfl, rfl⟩ := same
      cases present
      exact (Entry.push_iff pushed).mpr (.inl ⟨next, rfl, rfl, rfl⟩)
    next => exact (sound.locals id asked other present).keeps keeps
  case captures =>
    intro id asked copy present
    rw [copy?_congr (captured id)] at present
    obtain ⟨function, source, entry⟩ := sound.captures id asked copy present
    exact ⟨(functions id).trans function, source, entry.keeps keeps⟩
  case distinct =>
    intro id
    rw [captured id]
    exact sound.distinct id
  case sources =>
    intro copy asked outer source entry
    obtain ⟨_, _, _, same⟩ | old := (Entry.push_iff pushed).mp entry
    · cases same
    · obtain ⟨earlier, outer, origin, entry, outside⟩ := sound.sources copy asked outer source old
      exact ⟨earlier, outer, origin, entry.keeps keeps, outside⟩
  case known =>
    intro id now present
    by_cases same : id = frame
    · subst same
      cases changed.symm.trans present
      exact sound.known id held found
    · exact sound.known id now (others id same ▸ present)

theorem Sound.enter {opening : Opening} {parent inner : FrameId} {ids : List FrameId}
    (sound : tree.Sound) (path : tree.Path parent ids)
    (opened : tree.enter opening parent = (inner, after)) : after.Sound := by
  have keeps := (enter_grows opened).1.bindings
  obtain ⟨others, unbound, empty⟩ := enter_views opened
  obtain ⟨rfl, bindings, _, held, older⟩ := enter_some opened
  constructor
  case ordered =>
    intro id frame above present parented
    by_cases new : id = tree.frames.size
    · subst new
      cases held.symm.trans present
      cases parented
      obtain ⟨_, existing⟩ := path.frame
      exact frame?_lt existing
    · exact sound.ordered id frame above (older id new ▸ present) parented
  case locals =>
    intro id name binding bound
    by_cases new : id = tree.frames.size
    · subst new
      rw [unbound] at bound
      cases bound
    · exact (sound.locals id name binding ((others id new).1 name ▸ bound)).keeps keeps
  case captures =>
    intro id name copy present
    by_cases new : id = tree.frames.size
    · subst new
      rw [copy?_eq_find?, empty] at present
      cases present
    · obtain ⟨_, captured, _, function⟩ := others id new
      rw [copy?_congr captured] at present
      obtain ⟨function', source, entry⟩ := sound.captures id name copy present
      exact ⟨function.trans function', source, entry.keeps keeps⟩
  case distinct =>
    intro id
    by_cases new : id = tree.frames.size
    · subst new
      rw [empty]
      exact List.nodup_nil
    · rw [(others id new).2.1]
      exact sound.distinct id
  case sources =>
    intro copy name frame source entry
    obtain ⟨earlier, outer, origin, entry, outside⟩ :=
      sound.sources copy name frame source (entry.back keeps (by rw [bindings]))
    exact ⟨earlier, outer, origin, entry.keeps keeps, outside⟩
  case known =>
    intro id frame present
    by_cases new : id = tree.frames.size
    · subst new
      cases held.symm.trans present
      cases opening <;> rfl
    · exact sound.known id frame (older id new ▸ present)

/-! ### Capturing -/

/-- Copying into functions that hold no copy under the name appends one to each of them. -/
theorem copyIntoAll_spec {name : Symbol} {source : BindingId} {outer : FrameId}
    {origin : Option BindingId} {frames : List FrameId} {copies : List BindingId} {made : Bool}
    (sound : tree.Sound) (entry : tree.Entry source name outer origin)
    (inside : ∀ id ∈ frames, tree.isFunction id = true ∧ outer < id ∧ tree.copy? id name = none)
    (distinct : frames.Nodup)
    (copied : tree.copyIntoAll name source frames = some (copies, made, after)) :
    after.Sound ∧ (∀ id, id ∉ frames → after.captured id = tree.captured id) ∧
      (∀ id ∈ frames, ∃ copy, after.captured id = tree.captured id ++ [(name, copy)] ∧
        after.Entry copy name id (some source)) ∧
      copies.head? = frames.head?.bind (after.copy? · name) ∧
      made = !frames.isEmpty := by
  induction frames generalizing tree copies made with
  | nil =>
    simp only [copyIntoAll] at copied
    cases copied
    exact ⟨sound, fun _ _ => rfl, by simp, rfl, rfl⟩
  | cons frame frames ih =>
    obtain ⟨copy, first, between, rest, more, head, tail, rfl, rfl⟩ := copyIntoAll_cons copied
    obtain ⟨function, outside, absent⟩ := inside frame (List.mem_cons_self ..)
    obtain ⟨apart, distinct⟩ := List.nodup_cons.mp distinct
    obtain ⟨_, _, held, found, present⟩ | ⟨_, copies⟩ := copyInto_some head
    -- The first function would hold a copy already.
    · simp [copy?, found, present] at absent
    · have grown := copies.fills
      -- The other functions hold no copy yet, as they are different from the first.
      have inside' : ∀ id ∈ frames, between.isFunction id = true ∧ outer < id ∧
          between.copy? id name = none := by
        intro id member
        obtain ⟨function, outside, absent⟩ := inside id (List.mem_cons_of_mem _ member)
        have differs : ¬ (id = frame ∧ name = name) := fun same => apart (same.1 ▸ member)
        refine ⟨(grown.sameNames.isFunction id).trans function, outside, ?_⟩
        rw [copies.copy?, if_neg differs]
        exact absent
      obtain ⟨sound', others, added, _, _⟩ :=
        ih (sound.copies copies function entry outside) (entry.keeps grown.bindings) inside'
          distinct tail
      have here : after.captured frame = tree.captured frame ++ [(name, copy)] := by
        rw [others frame apart, copies.captured, if_pos rfl]
      have new : after.Entry copy name frame (some source) := by
        have entry := (Entry.push_iff copies.bindings).mpr (.inl ⟨copies.next, rfl, rfl, rfl⟩)
        exact entry.keeps (copyIntoAll_captures tail).fills.bindings
      refine ⟨sound', ?_, ?_, Eq.symm ?_, by simp_all⟩
      · intro id outside
        rw [List.mem_cons, not_or] at outside
        rw [others id outside.2, copies.captured, if_neg outside.1]
      · intro id member
        obtain rfl | member := List.mem_cons.mp member
        · exact ⟨copy, here, new⟩
        · obtain ⟨copy', added, entry'⟩ := added id member
          have differs : id ≠ frame := fun same => apart (same ▸ member)
          rw [copies.captured, if_neg differs] at added
          exact ⟨copy', added, entry'⟩
      · exact sound'.copy?_of_append here

/-- What a function takes along are copies of what is offered, under names it held none for. -/
theorem takeAlong_spec {captures : List (Symbol × BindingId)} (sound : tree.Sound)
    (function : tree.isFunction id = true)
    (outside : ∀ entry ∈ captures, ∃ outer origin,
      tree.Entry entry.2 entry.1 outer origin ∧ outer < id)
    (taken : tree.takeAlong id captures = some after) :
    after.Sound ∧ (∀ other, other ≠ id → after.captured other = tree.captured other) ∧
      ∀ entry ∈ after.captured id, entry ∈ tree.captured id ∨
        ∃ source, (entry.1, source) ∈ captures ∧ after.Entry entry.2 entry.1 id (some source) := by
  induction captures generalizing tree with
  | nil =>
    cases taken
    exact ⟨sound, fun _ _ => rfl, fun _ member => .inl member⟩
  | cons offered captures ih =>
    obtain ⟨name, source⟩ := offered
    obtain ⟨copy, made, between, copied, rest⟩ := takeAlong_cons taken
    obtain ⟨outer, origin, entry, further⟩ := outside _ (List.mem_cons_self ..)
    -- What is still offered stands where it stood, whether or not a copy is made now.
    have remaining (kept : tree.KeepsBindings between) (offered) (member : offered ∈ captures) :
        ∃ outer origin, between.Entry offered.2 offered.1 outer origin ∧ outer < id := by
      obtain ⟨outer, origin, entry, further⟩ := outside offered (List.mem_cons_of_mem _ member)
      exact ⟨outer, origin, entry.keeps kept, further⟩
    obtain ⟨_, rfl, _⟩ | ⟨_, copies⟩ := copyInto_some copied
    -- The name has a copy already, and nothing is taken.
    · obtain ⟨sound', others, taken⟩ := ih sound function (remaining (.refl _)) rest
      refine ⟨sound', others, fun entry member => ?_⟩
      obtain old | ⟨source, offered, entry⟩ := taken entry member
      · exact .inl old
      · exact .inr ⟨source, List.mem_cons_of_mem _ offered, entry⟩
    · have grown := copies.fills
      obtain ⟨sound', others, taken⟩ := ih (sound.copies copies function entry further)
        ((grown.sameNames.isFunction id).trans function) (remaining grown.bindings) rest
      refine ⟨sound', ?_, ?_⟩
      · intro other differs
        rw [others other differs, copies.captured, if_neg differs]
      · intro new member
        obtain old | ⟨source, offered, entry⟩ := taken new member
        · rw [copies.captured, if_pos rfl, List.mem_append, List.mem_singleton] at old
          obtain old | rfl := old
          · exact .inl old
          · have entry := (Entry.push_iff copies.bindings).mpr (.inl ⟨copies.next, rfl, rfl, rfl⟩)
            exact .inr ⟨source, List.mem_cons_self .., entry.keeps (takeAlong_captures rest).fills.bindings⟩
        · exact .inr ⟨source, List.mem_cons_of_mem _ offered, entry⟩

/-- A name refers to a binding of the frame that answers. -/
theorem Sound.entry_of_answer (sound : tree.Sound) {name : Symbol} {source : BindingId}
    (answers : tree.answer? id name = some (.binding source)) :
    ∃ origin, tree.Entry source name id origin := by
  obtain bound | ⟨_, copy⟩ := answer?_binding.mp answers
  · exact ⟨none, sound.locals id name source bound⟩
  · obtain ⟨_, origin, entry⟩ := sound.captures id name source copy
    exact ⟨some origin, entry⟩

/-- Using a local name splits the path at the frame that answers. Exactly the functions before that
frame get a copy of what it answers, and the use refers to the innermost of them, if there are
any. -/
theorem use_spec {name : Symbol} {source binding : BindingId} {crossed ids : List FrameId}
    {boxed : Bool} {between : FrameTree} (sound : tree.Sound) (path : tree.Path id ids)
    (refers : tree.Refers id name ⟨.binding source, crossed⟩)
    (captured : tree.capture ⟨source, crossed⟩ = some (binding, between))
    (noted : between.noteUse binding boxed = some after) :
    after.Sound ∧ name.isQualified = false ∧ ∃ inner at_ outer, ids = inner ++ at_ :: outer ∧
      (∀ other ∈ inner, tree.answer? other name = none) ∧
      tree.answer? at_ name = some (.binding source) ∧ crossed = inner.filter tree.isFunction ∧
      (∀ other, other ∉ crossed → after.captured other = tree.captured other) ∧
      (∀ other ∈ crossed, ∃ copy, after.captured other = tree.captured other ++ [(name, copy)] ∧
        after.Entry copy name other (some source)) ∧
      ((crossed = [] ∧ binding = source) ∨
        ∃ nearest rest, crossed = nearest :: rest ∧ after.copy? nearest name = some binding) := by
  obtain ⟨plain, inner, at_, outer, rfl, silent, answers, rfl⟩ := refers.split path
  obtain ⟨origin, entry⟩ := sound.entry_of_answer answers
  have decreasing := path.decreasing sound.ordered
  obtain ⟨held, copies, made, copied, found, copying, rfl, uses⟩ := capture_some captured
  obtain ⟨held', found', named, framed, sourced⟩ := entry
  cases found.symm.trans found'
  rw [named] at copying
  -- A frame before the answer is silent, so it holds no copy, and it is further in.
  have inside : ∀ other ∈ inner.filter tree.isFunction,
      tree.isFunction other = true ∧ at_ < other ∧ tree.copy? other name = none := by
    intro other member
    obtain ⟨member, function⟩ := List.mem_filter.mp member
    refine ⟨function, ?_, (answer?_none.mp (silent other member)).2.1⟩
    exact (List.pairwise_append.mp decreasing).2.2 other member at_ (List.mem_cons_self ..)
  have distinct : (inner.filter tree.isFunction).Nodup :=
    ((List.nodup_append.mp (path.nodup sound.ordered)).1).filter _
  obtain ⟨sound', others, added, listed, _⟩ :=
    copyIntoAll_spec sound ⟨held, found, named, framed, sourced⟩ inside distinct copying
  -- Noting uses changes neither frames nor sources.
  have settled {before after : FrameTree} {binding : BindingId} {boxed : Bool}
      (noted : before.noteUse binding boxed = some after) (sound : before.Sound) :
      after.Sound ∧ (∀ other, after.captured other = before.captured other) ∧
        before.KeepsBindings after :=
    ⟨sound.noteUse noted, noteUse_captured noted, noteUse_keepsBindings noted⟩
  have between_ : between.Sound ∧ (∀ other, between.captured other = copied.captured other) ∧
      copied.KeepsBindings between := by
    obtain ⟨_, rfl⟩ | ⟨_, spread⟩ := uses
    · exact ⟨sound', fun _ => rfl, .refl _⟩
    · exact settled spread sound'
  obtain ⟨soundBetween, same, keeps⟩ := between_
  obtain ⟨soundAfter, same', keeps'⟩ := settled noted soundBetween
  refine ⟨soundAfter, plain, inner, at_, outer, rfl, silent, answers, rfl, ?_, ?_, ?_⟩
  · intro other outside
    rw [same', same, others other outside]
  · intro other member
    obtain ⟨copy, added, entry⟩ := added other member
    exact ⟨copy, by rw [same', same, added], (entry.keeps keeps).keeps keeps'⟩
  -- Which binding the use refers to: the first copy that was made, if any.
  · cases crossed : inner.filter tree.isFunction with
    | nil =>
      rw [crossed] at listed
      exact .inl ⟨rfl, by rw [listed]; rfl⟩
    | cons nearest rest =>
      obtain ⟨copy, added, entry⟩ := added nearest (crossed ▸ List.mem_cons_self ..)
      have first := sound'.copy?_of_append added
      rw [crossed] at listed
      simp only [List.head?_cons, Option.bind_some, first] at listed
      refine .inr ⟨nearest, rest, rfl, ?_⟩
      rw [listed, copy?_congr ((same' nearest).trans (same nearest)), first]
      rfl

/-- Referring to an enclosing function splits the path at its frame. If no function is left on the
way, no copy is made; otherwise the nearest function gets copies of what the enclosing one holds,
and no other frame gets any. -/
theorem self_spec {name : Symbol} {target : FrameId} {crossed ids : List FrameId}
    (sound : tree.Sound) (path : tree.Path id ids)
    (refers : tree.Refers id name ⟨.self target, crossed⟩)
    (taken : tree.captureSelf id ⟨target, crossed⟩ = some after) :
    after.Sound ∧ name.isQualified = false ∧ ∃ inner outer, ids = inner ++ target :: outer ∧
      (∀ other ∈ inner, tree.answer? other name = none) ∧
      tree.answer? target name = some (.self target) ∧ crossed = inner.filter tree.isFunction ∧
      ((crossed = [] ∧ after = tree) ∨ ∃ nearest rest, crossed = nearest :: rest ∧
        (∀ other, other ≠ nearest → after.captured other = tree.captured other) ∧
        ∀ entry ∈ after.captured nearest, entry ∈ tree.captured nearest ∨
          ∃ source, tree.copy? target entry.1 = some source ∧
            after.Entry entry.2 entry.1 nearest (some source)) := by
  obtain ⟨plain, inner, at_, outer, rfl, silent, answers, rfl⟩ := refers.split path
  obtain ⟨rfl, _⟩ := self?_some (answer?_self.mp answers).2.2
  have decreasing := path.decreasing sound.ordered
  obtain ⟨empty, rfl⟩ | ⟨leaves, nearest, held, closest, found, along⟩ := captureSelf_some taken
  · exact ⟨sound, plain, inner, outer, rfl, silent, answers, rfl, .inl ⟨empty, rfl⟩⟩
  · cases crossed : inner.filter tree.isFunction with
    | nil => exact absurd crossed leaves
    | cons first rest =>
      have along_ : (inner ++ target :: outer).filter tree.isFunction =
          first :: (rest ++ (target :: outer).filter tree.isFunction) := by
        rw [List.filter_append, crossed, List.cons_append]
      -- The nearest function is the first one that is left.
      cases closestFunction_of_path closest path along_
      obtain ⟨member, function⟩ : nearest ∈ inner ∧ tree.isFunction nearest = true := by
        rw [← List.mem_filter, crossed]
        exact List.mem_cons_self ..
      have further : target < nearest :=
        (List.pairwise_append.mp decreasing).2.2 nearest member target (List.mem_cons_self ..)
      have entries : tree.captured target = held.captures.entries := by simp [captured, found]
      -- What it is offered are copies of the function it refers to, which is further out.
      have offered : ∀ entry ∈ held.captures.entries, ∃ outer origin,
          tree.Entry entry.2 entry.1 outer origin ∧ outer < nearest := by
        intro entry member
        have copy := sound.copy?_of_mem (entries ▸ member : (entry.1, entry.2) ∈ _)
        obtain ⟨_, source, known⟩ := sound.captures target _ _ copy
        exact ⟨target, some source, known, further⟩
      obtain ⟨sound', others, taken⟩ := takeAlong_spec sound function offered along
      refine ⟨sound', plain, inner, outer, rfl, silent, answers, crossed.symm, .inr
        ⟨nearest, rest, rfl, others, fun entry member => ?_⟩⟩
      obtain old | ⟨source, offered, entry'⟩ := taken entry member
      · exact .inl old
      · exact .inr ⟨source, sound.copy?_of_mem (entries ▸ offered), entry'⟩

end FrameTree

/-! ### Steps and runs -/

theorem Effect.sound {frame : FrameId} {ids : List FrameId} {node : Node Expr}
    {before after : FrameTree} (effect : Effect frame node before after)
    (path : before.Path frame ids) (sound : before.Sound) : after.Sound := by
  cases effect with
  | lifts _ _ lifts => exact sound.lifts lifts
  | uses _ _ refers captured noted => exact (FrameTree.use_spec sound path refers captured noted).1
  | recurs _ _ refers taken marked =>
    have between := (FrameTree.self_spec sound path refers taken).1
    obtain ⟨_, rfl⟩ | ⟨_, updated⟩ := marked
    · exact between
    · exact between.updateFunction FnContext.markNamed_notes updated

theorem Ends.sound {node : Node Expr} {before after : Store} (ends : Ends node before after)
    (sound : before.tree.Sound) : after.tree.Sound := by
  cases ends with
  | jump _ marked => exact sound.updateFunction FnContext.markTail_notes marked
  | idle => exact sound

theorem Binds.sound {frame : FrameId} {binding : BindingId} {how : Introduction}
    {before after : FrameTree} (binds : Binds frame binding how before after)
    (sound : before.Sound) : after.Sound := by
  obtain ⟨_, _, _, _, bound⟩ := binds.bound
  exact sound.bind bound

theorem FrameTree.Sound.fillLoop {frame : FrameId} {arity : Nat} {before after : FrameTree}
    (sound : before.Sound) (counted : before.updateFrame frame (Frame.fillLoop arity) = some after) :
    after.Sound := by
  have ⟨names, captured⟩ := FrameTree.fillLoop_sameNames counted
  obtain ⟨_, _, bindings, _⟩ := FrameTree.updateFrame_some counted
  exact sound.of_same names captured (FrameTree.fillLoop_grows counted) (by rw [bindings])

theorem Counts.sound {frame : FrameId} {arity : Nat} {before after : FrameTree}
    (counts : Counts frame arity before after) (sound : before.Sound) : after.Sound := by
  obtain ⟨_, _, _, counted⟩ := counts
  exact sound.fillLoop counted

/-- A run in a frame of a sound tree leaves a sound tree. -/
theorem Enacts.sound {config : Config} {frame : FrameId} {ids : List FrameId} {steps : List Step}
    {before after : Store} (run : Enacts config frame steps before after)
    (path : before.tree.Path frame ids) (sound : before.tree.Sound) : after.tree.Sound := by
  induction run generalizing ids with
  | done => exact sound
  | bind binds _ ih => exact ih (path.grows binds.grows.1) (binds.sound sound)
  | count counts _ ih => exact ih (path.grows counts.grows.1) (counts.sound sound)
  | block opened _ within _ inside rest =>
    have grows := (FrameTree.enter_grows opened).1
    have followed := inside (path.opened opened) (sound.enter path opened)
    exact rest (path.grows (grows.trans within.grows)) followed
  | visit _ begins within ends _ follows rest =>
    have effect := begins.effect
    have begun := path.grows effect.grows.1
    have followed := follows begun (effect.sound path sound)
    exact rest ((begun.grows within.grows).grows ends.grows.1) (ends.sound followed)

theorem FrameTree.sound_initial : FrameTree.initial.Sound := by
  have root {id : FrameId} {frame : Frame} (held : FrameTree.initial.frame? id = some frame) :
      frame = { kind := .root, parent := none } := by
    cases id with
    | zero => exact (Option.some.inj held).symm
    | succ id => cases held
  have captured (id : FrameId) : FrameTree.initial.captured id = [] := by
    cases id <;> rfl
  constructor
  case ordered =>
    intro id frame parent held above
    cases root held
    cases above
  case locals =>
    intro id name binding bound
    cases id <;> cases bound
  case captures =>
    intro id name copy present
    rw [copy?_eq_find?, captured] at present
    cases present
  case distinct =>
    intro id
    rw [captured]
    exact List.nodup_nil
  case sources =>
    rintro copy name frame source ⟨held, found, _⟩
    cases found
  case known =>
    intro id frame held
    cases root held
    rfl

end LispScope
