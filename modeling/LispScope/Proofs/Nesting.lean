import LispScope.Proofs.Soundness

/-!
# Nesting of copies

A copy never gets lost: the frame that it belongs to holds it under its name, and the frame of its
source stands further out, so what functions capture always comes from around them. Every run
preserves this (`Enacts.nests`). A node that is visited adds copies at most
(`FrameTree.AddsCopies`); all other bindings stem from scripts.
-/
namespace LispScope

namespace FrameTree

variable {tree before between after : FrameTree} {id : FrameId}

/-- A frame stands further out than another one. -/
def Around (tree : FrameTree) (outer inner : FrameId) : Prop :=
  ∃ ids, tree.Path inner (inner :: ids) ∧ outer ∈ ids

theorem Around.grows {outer inner : FrameId} (around : before.Around outer inner)
    (grows : before.Grows after) : after.Around outer inner := by
  obtain ⟨ids, path, member⟩ := around
  exact ⟨ids, path.grows grows, member⟩

/-- On a path, what comes later stands around what comes before. -/
theorem Path.around {inner outer : List FrameId} {at_ other : FrameId}
    (path : tree.Path id (inner ++ at_ :: outer)) (member : other ∈ inner) :
    tree.Around at_ other := by
  obtain ⟨first, rest, rfl⟩ := List.append_of_mem member
  rw [List.append_assoc, List.cons_append] at path
  exact ⟨_, path.suffix, by simp⟩

/-- No frame is opened, and every binding that is made is a copy, which its frame holds. -/
structure AddsCopies (before after : FrameTree) : Prop where
  grows : before.Grows after
  frames : after.frames.size = before.frames.size
  count : before.bindings.size ≤ after.bindings.size
  held : ∀ copy name frame source, after.Entry copy name frame source →
    before.bindings.size ≤ copy → source ≠ none ∧ (name, copy) ∈ after.captured frame

namespace AddsCopies

theorem of_size (grows : before.Grows after) (frames : after.frames.size = before.frames.size)
    (count : after.bindings.size = before.bindings.size) : before.AddsCopies after := by
  refine ⟨grows, frames, Nat.le_of_eq count.symm, fun copy name frame source entry new => ?_⟩
  exact absurd (count ▸ entry.lt) (Nat.not_lt.mpr new)

theorem refl (tree : FrameTree) : tree.AddsCopies tree := .of_size (.refl tree) rfl rfl

theorem trans (first : before.AddsCopies between) (second : between.AddsCopies after) :
    before.AddsCopies after := by
  refine ⟨first.grows.trans second.grows, second.frames.trans first.frames,
    Nat.le_trans first.count second.count, fun copy name frame source entry new => ?_⟩
  by_cases early : copy < between.bindings.size
  · -- A copy of the first part is the same at the end, and is still held.
    have old : between.Entry copy _ _ _ := ⟨_, Array.getElem?_eq_getElem early, rfl, rfl, rfl⟩
    obtain ⟨rfl, rfl, rfl⟩ := (old.keeps second.grows.bindings).unique entry
    obtain ⟨copied, member⟩ := first.held _ _ _ _ old new
    exact ⟨copied, second.grows.mem_captured member⟩
  · exact second.held copy name frame source entry (Nat.not_lt.mp early)

theorem of_copies {name : Symbol} {source copy : BindingId}
    (copies : Copies name source id copy before after) : before.AddsCopies after := by
  refine ⟨copies.fills.grows, copies.size, by simp [copies.bindings], ?_⟩
  intro other asked frame origin entry new
  rcases (Entry.push_iff copies.bindings).mp entry with ⟨rfl, rfl, rfl, rfl⟩ | old
  · refine ⟨by simp [Binding.copyOf], ?_⟩
    change (name, before.bindings.size) ∈ after.captured id
    rw [copies.captured, if_pos rfl, copies.next]
    exact List.mem_append_right _ (List.mem_singleton_self _)
  · exact absurd old.lt (Nat.not_lt.mpr new)

theorem of_captures (captures : before.Captures after) : before.AddsCopies after := by
  induction captures with
  | done => exact .refl _
  | copy copies _ ih => exact (of_copies copies).trans ih
  | use noted _ ih =>
    have fills := noteUse_fills noted
    exact (of_size fills.grows fills.size (noteUse_size noted)).trans ih

theorem updateFunction {change : FnContext → FnContext} {target : FrameId}
    (notes : FnContext.Notes change)
    (updated : before.updateFrame target (Frame.updateFunction change) = some after) :
    before.AddsCopies after := by
  obtain ⟨_, _, bindings, size, _, _⟩ := updateFrame_some updated
  exact .of_size (updateFunction_grows notes updated).1 size (by rw [bindings])

end AddsCopies

end FrameTree

theorem Effect.addsCopies {frame : FrameId} {node : Node Expr} {before after : FrameTree}
    (effect : Effect frame node before after) : before.AddsCopies after := by
  cases effect with
  | lifts _ _ lifts => exact .of_size lifts.fills.grows lifts.size (by rw [lifts.bindings])
  | uses _ _ _ captured noted =>
    exact .of_captures (FrameTree.use_captures captured noted)
  | recurs _ _ _ taken marked =>
    have along := FrameTree.AddsCopies.of_captures (FrameTree.captureSelf_captures taken)
    rcases marked with ⟨_, rfl⟩ | ⟨_, updated⟩
    · exact along
    · exact along.trans (.updateFunction FnContext.markNamed_notes updated)

theorem Ends.addsCopies {node : Node Expr} {before after : Store} (ends : Ends node before after) :
    before.tree.AddsCopies after.tree := by
  cases ends with
  | jump _ marked => exact .updateFunction FnContext.markTail_notes marked
  | idle => exact .refl _

theorem Counts.addsCopies {frame : FrameId} {arity : Nat} {before after : FrameTree}
    (counts : Counts frame arity before after) : before.AddsCopies after := by
  obtain ⟨_, _, _, _, bindings, size, _⟩ := counts.counted
  exact .of_size counts.grows.1 size (by rw [bindings])

/-- Every copy is held by its frame under its name, and its source stands around that frame. -/
def FrameTree.Nests (tree : FrameTree) : Prop :=
  ∀ copy name frame source, tree.Entry copy name frame (some source) →
    (name, copy) ∈ tree.captured frame ∧
      ∃ outer origin, tree.Entry source name outer origin ∧ tree.Around outer frame

namespace FrameTree.Nests

variable {tree before after : FrameTree} {id : FrameId} {ids : List FrameId}

theorem step (nests : before.Nests) (sound : before.Sound) (adds : before.AddsCopies after)
    (new : ∀ frame name copy, (name, copy) ∈ after.captured frame →
      (name, copy) ∈ before.captured frame ∨ ∃ source outer origin,
        after.Entry copy name frame (some source) ∧ after.Entry source name outer origin ∧
        after.Around outer frame) : after.Nests := by
  intro copy name frame source entry
  by_cases early : copy < before.bindings.size
  · have old : before.Entry copy _ _ _ := ⟨_, Array.getElem?_eq_getElem early, rfl, rfl, rfl⟩
    obtain ⟨rfl, rfl, same⟩ := (old.keeps adds.grows.bindings).unique entry
    rw [← same] at old
    obtain ⟨member, outer, origin, original, around⟩ := nests _ _ _ _ old
    exact ⟨adds.grows.mem_captured member, outer, origin, original.keeps adds.grows.bindings,
      around.grows adds.grows⟩
  · have late := Nat.not_lt.mp early
    obtain ⟨_, member⟩ := adds.held copy name frame _ entry late
    refine ⟨member, ?_⟩
    rcases new frame name copy member with old | ⟨source', outer, origin, entry', original, around⟩
    -- What a frame held before is an earlier binding.
    · obtain ⟨_, _, known⟩ := sound.captures frame name copy (sound.copy?_of_mem old)
      exact absurd known.lt early
    · obtain ⟨_, _, same⟩ := entry.unique entry'
      cases same
      exact ⟨outer, origin, original, around⟩

theorem congr (nests : before.Nests) (sound : before.Sound) (adds : before.AddsCopies after)
    (captured : ∀ frame, after.captured frame = before.captured frame) : after.Nests :=
  nests.step sound adds fun frame _ _ member => .inl (captured frame ▸ member)

theorem bind {frame : FrameId} {name : Symbol} {initial : Option Expr} {needsBox : Bool}
    {binding : BindingId} (nests : before.Nests)
    (bound : before.bind frame name initial needsBox = some (binding, after)) : after.Nests := by
  intro copy asked holder source entry
  have grows := (bind_grows bound).1
  obtain ⟨_, pushed, _⟩ := bind_some bound
  rcases (Entry.push_iff pushed).mp entry with ⟨_, _, _, same⟩ | old
  · cases same
  · obtain ⟨member, outer, origin, original, around⟩ := nests copy asked holder source old
    exact ⟨grows.mem_captured member, outer, origin, original.keeps grows.bindings,
      around.grows grows⟩

theorem enter {opening : Opening} {parent inner : FrameId} (nests : before.Nests)
    (opened : before.enter opening parent = (inner, after)) : after.Nests := by
  intro copy name holder source entry
  have grows := (enter_grows opened).1
  obtain ⟨_, bindings, _⟩ := enter_some opened
  obtain ⟨member, outer, origin, original, around⟩ :=
    nests copy name holder source (entry.back grows.bindings (by rw [bindings]))
  exact ⟨grows.mem_captured member, outer, origin, original.keeps grows.bindings,
    around.grows grows⟩

/-- A use copies what a frame further out answers. -/
theorem use {name : Symbol} {source binding : BindingId} {crossed : List FrameId} {boxed : Bool}
    {between : FrameTree} (nests : before.Nests) (sound : before.Sound) (path : before.Path id ids)
    (refers : before.Refers id name ⟨.binding source, crossed⟩)
    (captured : before.capture ⟨source, crossed⟩ = some (binding, between))
    (noted : between.noteUse binding boxed = some after) : after.Nests := by
  have adds := AddsCopies.of_captures (use_captures captured noted)
  obtain ⟨_, _, inner, at_, outer, rfl, _, answers, rfl, others, added, _⟩ :=
    use_spec sound path refers captured noted
  obtain ⟨origin, original⟩ := sound.entry_of_answer answers
  refine nests.step sound adds fun frame asked copy member => ?_
  by_cases crossed : frame ∈ inner.filter before.isFunction
  · obtain ⟨new, appended, entry⟩ := added frame crossed
    rw [appended, List.mem_append, List.mem_singleton] at member
    rcases member with old | same
    · exact .inl old
    · cases same
      have around := path.around (List.mem_filter.mp crossed).1
      exact .inr ⟨source, at_, origin, entry, original.keeps adds.grows.bindings,
        around.grows adds.grows⟩
  · exact .inl (others frame crossed ▸ member)

/-- What a function takes along are copies of those of a function around it. -/
theorem self {name : Symbol} {target : FrameId} {crossed : List FrameId} (nests : before.Nests)
    (sound : before.Sound) (path : before.Path id ids)
    (refers : before.Refers id name ⟨.self target, crossed⟩)
    (taken : before.captureSelf id ⟨target, crossed⟩ = some after) : after.Nests := by
  have adds := AddsCopies.of_captures (captureSelf_captures taken)
  obtain ⟨_, _, inner, outer, rfl, _, _, rfl, ⟨_, rfl⟩ | ⟨nearest, rest, first, others, along⟩⟩ :=
    self_spec sound path refers taken
  · exact nests
  · refine nests.step sound adds fun frame asked copy member => ?_
    by_cases here : frame = nearest
    · subst here
      rcases along _ member with old | ⟨source, held, entry⟩
      · exact .inl old
      · obtain ⟨_, origin, original⟩ := sound.captures target asked source held
        have left : frame ∈ inner.filter before.isFunction := first ▸ List.mem_cons_self ..
        have around := path.around (List.mem_filter.mp left).1
        exact .inr ⟨source, target, some origin, entry, original.keeps adds.grows.bindings,
          around.grows adds.grows⟩
    · exact .inl (others frame here ▸ member)

theorem updateFunction {change : FnContext → FnContext} {target : FrameId} (nests : before.Nests)
    (sound : before.Sound) (notes : FnContext.Notes change)
    (updated : before.updateFrame target (Frame.updateFunction change) = some after) :
    after.Nests :=
  nests.congr sound (.updateFunction notes updated) (updateFunction_sameNames notes updated).2

end FrameTree.Nests

theorem Effect.nests {frame : FrameId} {ids : List FrameId} {node : Node Expr}
    {before after : FrameTree} (effect : Effect frame node before after)
    (path : before.Path frame ids) (sound : before.Sound) (nests : before.Nests) : after.Nests := by
  have adds := effect.addsCopies
  cases effect with
  | lifts _ _ lifts => exact nests.congr sound adds lifts.captured
  | uses _ _ refers captured noted => exact nests.use sound path refers captured noted
  | recurs _ _ refers taken marked =>
    have along := nests.self sound path refers taken
    rcases marked with ⟨_, rfl⟩ | ⟨_, updated⟩
    · exact along
    · exact along.updateFunction (FrameTree.self_spec sound path refers taken).1
        FnContext.markNamed_notes updated

theorem Ends.nests {node : Node Expr} {before after : Store} (ends : Ends node before after)
    (sound : before.tree.Sound) (nests : before.tree.Nests) : after.tree.Nests := by
  cases ends with
  | jump _ marked => exact nests.updateFunction sound FnContext.markTail_notes marked
  | idle => exact nests

/-- A run in a frame of a sound tree leaves copies nested. -/
theorem Enacts.nests {config : Config} {frame : FrameId} {ids : List FrameId} {steps : List Step}
    {before after : Store} (run : Enacts config frame steps before after)
    (path : before.tree.Path frame ids) (sound : before.tree.Sound) (nests : before.tree.Nests) :
    after.tree.Nests := by
  induction run generalizing ids with
  | done => exact nests
  | bind binds _ ih =>
    obtain ⟨_, _, _, _, bound⟩ := binds.bound
    exact ih (path.grows binds.grows.1) (binds.sound sound) (nests.bind bound)
  | count counts _ ih =>
    exact ih (path.grows counts.grows.1) (counts.sound sound)
      (nests.congr sound counts.addsCopies (FrameTree.counts_sameNames counts).2)
  | block opened _ within _ inside rest =>
    have grows := (FrameTree.enter_grows opened).1
    have entered := sound.enter path opened
    have followed := inside (path.opened opened) entered (nests.enter opened)
    exact rest (path.grows (grows.trans within.grows)) (within.sound (path.opened opened) entered)
      followed
  | visit _ begins within ends _ follows rest =>
    have effect := begins.effect
    have begun := path.grows effect.grows.1
    have started := effect.sound path sound
    have followed := follows begun started (effect.nests path sound nests)
    have finished := within.sound begun started
    exact rest ((begun.grows within.grows).grows ends.grows.1) (ends.sound finished)
      (ends.nests finished followed)

theorem FrameTree.nests_initial : FrameTree.initial.Nests := by
  rintro copy name frame source ⟨held, found, _⟩
  cases found

end LispScope
