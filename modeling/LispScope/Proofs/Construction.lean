import LispScope.Proofs.Path

/-!
# How trees come about

The trees of an analysis are made by few kinds of step: a frame is opened inside another one, what is
known of its function or of its loop is filled in, a name is bound, a copy is added, a use is noted, a
function is marked, or something is lifted. A tree is *built* if it was made from the initial one by
such steps, whether the analysis came to an end or not. Every frame of a built tree has a lineage, only
unqualified names are bound or copied in it, and only frames of functions know a function.

On a lineage, the combined search for a name agrees with the two separate ones, for its bindings and
for functions of that name: `Lineage.resolve_spec`.
-/
namespace LispScope

namespace Lineage

variable {α β γ : Type}

theorem cross_eq (id : FrameId) (frame : Frame) (found : Found α) :
    cross id frame found =
      ⟨found.target, (if frame.isFunction then [id] else []) ++ found.crossed⟩ := by
  unfold cross
  split <;> rfl

/-- Two searches along the same lineage leave the same functions, as far as both go. -/
theorem search_crossed {ask : FrameId → Frame → Option α} {other : FrameId → Frame → Option β}
    {lineage : Lineage} {found : Found α} {found' : Found β}
    (first : lineage.search ask = some found) (second : lineage.search other = some found') :
    found.crossed <+: found'.crossed ∨ found'.crossed <+: found.crossed := by
  induction lineage generalizing found found' with
  | nil => cases first
  | cons entry outer ih =>
    obtain ⟨id, frame⟩ := entry
    rw [search] at first second
    split at first
    next =>
      cases first
      exact .inl List.nil_prefix
    next =>
      split at second
      next =>
        cases second
        exact .inr List.nil_prefix
      next =>
        obtain ⟨rest, further, rfl⟩ := Option.map_eq_some_iff.mp first
        obtain ⟨rest', further', rfl⟩ := Option.map_eq_some_iff.mp second
        rw [cross_eq, cross_eq, List.prefix_append_right_inj,
          List.prefix_append_right_inj]
        exact ih further further'

/-- Of what two searches found, the one for which fewer functions were left, or else the first. -/
def nearer (f : α → γ) (g : β → γ) : Option (Found α) → Option (Found β) → Option (Found γ)
  | none, none => none
  | some found, none => some ⟨f found.target, found.crossed⟩
  | none, some found => some ⟨g found.target, found.crossed⟩
  | some found, some found' =>
    if found.crossed.length ≤ found'.crossed.length then some ⟨f found.target, found.crossed⟩
    else some ⟨g found'.target, found'.crossed⟩

theorem nearer_cross (f : α → γ) (g : β → γ) (id : FrameId) (frame : Frame)
    (first : Option (Found α)) (second : Option (Found β)) :
    nearer f g (first.map (cross id frame)) (second.map (cross id frame)) =
      (nearer f g first second).map (cross id frame) := by
  cases first with
  | none => cases second <;> simp [nearer, cross_eq]
  | some found =>
    cases second with
    | none => simp [nearer, cross_eq]
    | some found' =>
      simp only [nearer, Option.map_some, cross_eq, List.length_append, Nat.add_le_add_iff_left]
      split <;> simp [cross_eq]

theorem nearer_eq_none_iff {f : α → γ} {g : β → γ} {first : Option (Found α)}
    {second : Option (Found β)} : nearer f g first second = none ↔ first = none ∧ second = none := by
  cases first <;> cases second <;> simp only [nearer, reduceCtorEq, and_self, and_false, false_and]
  split <;> simp

/-- The first of two is found unless the other one is nearer, the second only if it is nearer. -/
theorem nearer_eq_some_iff {f : α → γ} {g : β → γ} {first : Option (Found α)}
    {second : Option (Found β)} {target : γ} {crossed : List FrameId} :
    nearer f g first second = some ⟨target, crossed⟩ ↔
      (∃ found, f found = target ∧ first = some ⟨found, crossed⟩ ∧
        ∀ other ∈ second, crossed.length ≤ other.crossed.length) ∨
      ∃ found, g found = target ∧ second = some ⟨found, crossed⟩ ∧
        ∀ other ∈ first, crossed.length < other.crossed.length := by
  cases first with
  | none =>
    cases second with
    | none => simp [nearer]
    | some found' =>
      obtain ⟨own, left⟩ := found'
      simp [nearer]
  | some found =>
    obtain ⟨bound, left⟩ := found
    cases second with
    | none => simp [nearer]
    | some found' =>
      obtain ⟨own, left'⟩ := found'
      by_cases near : left.length ≤ left'.length
      · simp only [nearer, if_pos near]
        constructor
        · intro same
          cases same
          exact .inl ⟨bound, rfl, rfl, by simpa using near⟩
        · rintro (⟨found, rfl, same, _⟩ | ⟨found, rfl, same, further⟩)
          · cases same
            rfl
          · cases same
            exact absurd near (Nat.not_le.mpr (further _ rfl))
      · simp only [nearer, if_neg near]
        constructor
        · intro same
          cases same
          exact .inr ⟨own, rfl, rfl, by simpa using near⟩
        · rintro (⟨found, rfl, same, further⟩ | ⟨found, rfl, same, _⟩)
          · cases same
            exact absurd (further _ rfl) near
          · cases same
            rfl

/-- A search for either of two answers finds the nearer one. This needs that the second kind of answer
is given by frames of functions only: whatever is found outside such a frame has left it. -/
theorem search_orElse {ask : FrameId → Frame → Option α} {other : FrameId → Frame → Option β}
    {f : α → γ} {g : β → γ}
    {lineage : Lineage} (own : ∀ entry ∈ lineage, ∀ target, other entry.1 entry.2 = some target →
      entry.2.isFunction = true) :
    lineage.search (fun id frame => (ask id frame).map f <|> (other id frame).map g) =
      nearer f g (lineage.search ask) (lineage.search other) := by
  induction lineage with
  | nil => rfl
  | cons entry outer ih =>
    obtain ⟨id, frame⟩ := entry
    obtain ⟨here, further⟩ := List.forall_mem_cons.mp own
    rw [search, search, search]
    cases asked : ask id frame with
    | some target =>
      cases others : other id frame with
      | some target' => simp [nearer]
      | none => cases search other outer <;> simp [nearer]
    | none =>
      cases others : other id frame with
      -- What the first search finds is found further out, and so it has left one function more.
      | some target' =>
        have function := here target' others
        cases search ask outer <;> simp [nearer, cross, function]
      | none =>
        rw [nearer_cross, ← ih further]
        rfl

/-- The combined search for an unqualified name agrees with the searches for its bindings and for
functions of that name. It fails where both fail; a binding is found unless a function of that name
is nearer; and a function is found if it is nearer than any binding. -/
theorem resolve_spec {lineage : Lineage}
    (known : ∀ entry ∈ lineage, entry.2.function?.isSome = true → entry.2.isFunction = true)
    {name : Symbol} (plain : name.isQualified = false) :
    (lineage.resolve name = none ↔
      lineage.findBinding true name = none ∧ lineage.findSelf name = none) ∧
    (∀ binding crossed, lineage.resolve name = some ⟨.binding binding, crossed⟩ ↔
      lineage.findBinding true name = some ⟨binding, crossed⟩ ∧
        ∀ own ∈ lineage.findSelf name, crossed.length ≤ own.crossed.length) ∧
    (∀ frame crossed, lineage.resolve name = some ⟨.self frame, crossed⟩ ↔
      lineage.findSelf name = some ⟨frame, crossed⟩ ∧
        ∀ found ∈ lineage.findBinding true name, crossed.length < found.crossed.length) ∧
    ∀ found ∈ lineage.findBinding true name, ∀ own ∈ lineage.findSelf name,
      found.crossed <+: own.crossed ∨ own.crossed <+: found.crossed := by
  have own (entry : FrameId × Frame) (member : entry ∈ lineage) (target : FrameId)
      (named : entry.2.self? entry.1 name = some target) : entry.2.isFunction = true := by
    rw [Frame.self?, Option.ite_none_right_eq_some, Frame.isNamed, Option.any_eq_true] at named
    obtain ⟨⟨context, held, _⟩, _⟩ := named
    exact known entry member (by rw [held]; rfl)
  have combined : lineage.resolve name =
      nearer .binding .self (lineage.findBinding true name) (lineage.findSelf name) := by
    rw [resolve, findSelf, plain]
    exact search_orElse own
  rw [combined]
  refine ⟨nearer_eq_none_iff, fun binding crossed => ?_, fun frame crossed => ?_, ?_⟩
  · rw [nearer_eq_some_iff]
    simp
  · rw [nearer_eq_some_iff]
    simp
  · intro found bound own named
    rw [findSelf, plain] at named
    exact search_crossed bound named

end Lineage

namespace FrameTree

/-- A step by which one tree is made from another. Names that are bound or copied are unqualified. -/
inductive Step : FrameTree → FrameTree → Prop
  | opened {before after : FrameTree} {kind : FrameKind} {parent inner : FrameId}
      (inRange : parent < before.frames.size)
      (opened : before.openFrame kind parent = (inner, after)) : Step before after
  | filled {before after : FrameTree} {held : Frame} {context : FnContext}
      (found : before.frame? target = some held) (function : held.isFunction = true)
      (filled : before.updateFrame target (Frame.fillFunction context) = some after) :
      Step before after
  | counted {before after : FrameTree} {arity : Nat}
      (counted : before.updateFrame target (Frame.fillLoop arity) = some after) : Step before after
  | bound {before after : FrameTree} {frame : FrameId} {name : Symbol} {value : Option Expr}
      {needsBox : Bool} {binding : BindingId} (plain : name.isQualified = false)
      (bound : before.bind frame name value needsBox = some (binding, after)) : Step before after
  | copied {before after : FrameTree} {name : Symbol} (plain : name.isQualified = false)
      (copies : Copies name source frame copy before after) : Step before after
  | noted {before after : FrameTree} (noted : before.noteUse binding boxed = some after) :
      Step before after
  | marked {before after : FrameTree} (notes : FnContext.Notes change)
      (updated : before.updateFrame target (Frame.updateFunction change) = some after) :
      Step before after
  | lifted {before after : FrameTree} (lifts : before.Lifts after) : Step before after

/-- One tree is made from another by steps. -/
def Builds : FrameTree → FrameTree → Prop := Relation.ReflTransGen Step

/-- A tree that is made by steps from the initial one. -/
def Built (tree : FrameTree) : Prop := Builds .initial tree

/-- All names that are bound or copied are unqualified. -/
structure Plain (tree : FrameTree) : Prop where
  bound : ∀ id name binding, tree.bound? id name = some binding → name.isQualified = false
  copied : ∀ id, ∀ entry ∈ tree.captured id, entry.1.isQualified = false
  named : ∀ id binding, tree.binding? id = some binding → binding.name.isQualified = false

/-- Only frames of functions know a function. -/
def Knows (tree : FrameTree) : Prop :=
  ∀ id frame, tree.frame? id = some frame → frame.function?.isSome = true → frame.isFunction = true

variable {tree before after : FrameTree}

/-! ### What holds of built trees -/

/-- A change of one frame that leaves its parent, its names and its copies alone. -/
theorem updateFrame_tables {change : Frame → Frame} {target : FrameId}
    (updated : before.updateFrame target change = some after)
    (stays : ∀ held : Frame, (change held).parent = held.parent ∧
      (change held).locals = held.locals ∧ (change held).captures = held.captures) :
    (before.Ordered → after.Ordered) ∧ (∀ id name, after.bound? id name = before.bound? id name) ∧
      ∀ id, after.captured id = before.captured id := by
  obtain ⟨held, found, _, _, changed, others⟩ := updateFrame_some updated
  obtain ⟨parent, locals, captures⟩ := stays held
  refine ⟨fun ordered id frame outer present inside => ?_, fun id name => ?_, fun id => ?_⟩ <;>
    by_cases here : id = target
  · subst here
    cases changed.symm.trans present
    exact ordered _ held outer found (parent.symm.trans inside)
  · exact ordered id frame outer ((others id here).symm.trans present) inside
  · simp [bound?, here, found, changed, locals]
  · simp [bound?, others id here]
  · simp [captured, here, found, changed, captures]
  · simp [captured, others id here]

theorem ordered_initial : FrameTree.initial.Ordered := by
  rintro (_ | id) frame parent held inside <;> cases held
  cases inside

theorem Step.ordered (step : Step before after) (ordered : before.Ordered) : after.Ordered := by
  cases step with
  | opened inRange opened =>
    obtain ⟨rfl, _, _, held, others⟩ := openFrame_some opened
    intro id frame parent present inside
    by_cases new : id = before.frames.size
    · subst new
      cases held.symm.trans present
      cases inside
      exact inRange
    · exact ordered id frame parent ((others id new).symm.trans present) inside
  | filled _ _ filled => exact (updateFrame_tables filled fun _ => ⟨rfl, rfl, rfl⟩).1 ordered
  | counted counted => exact (updateFrame_tables counted fun _ => ⟨rfl, rfl, rfl⟩).1 ordered
  | @bound _ _ target _ _ _ _ _ bound =>
    obtain ⟨_, _, _, ⟨held, found, changed⟩, others⟩ := bind_some bound
    intro id frame parent present inside
    by_cases here : id = target
    · subst here
      cases changed.symm.trans present
      exact ordered _ held parent found inside
    · exact ordered id frame parent ((others id here).symm.trans present) inside
  | copied plain copies => exact copies.fills.sameNames.ordered ordered
  | noted noted => exact (noteUse_fills noted).sameNames.ordered ordered
  | marked _ updated => exact (updateFrame_tables updated fun _ => ⟨rfl, rfl, rfl⟩).1 ordered
  | lifted lifts => exact lifts.fills.sameNames.ordered ordered

theorem plain_initial : FrameTree.initial.Plain := by
  refine ⟨?_, ?_, ?_⟩
  · rintro (_ | id) name binding bound <;> cases bound
  · rintro (_ | id) entry member <;> cases member
  · rintro id binding held
    cases held

/-- A tree with the same names and bindings is plain as well. -/
theorem Plain.of_same (plain : before.Plain)
    (bound : ∀ id name, after.bound? id name = before.bound? id name)
    (captured : ∀ id, after.captured id = before.captured id)
    (kept : before.KeepsBindings after) (size : after.bindings.size = before.bindings.size) :
    after.Plain := by
  refine ⟨fun id name binding found => ?_, fun id entry member => ?_, fun id binding held => ?_⟩
  · exact plain.bound id name binding ((bound id name).symm.trans found)
  · exact plain.copied id entry (captured id ▸ member)
  · have inRange : id < before.bindings.size := size ▸ binding?_lt held
    obtain ⟨same, found, agrees⟩ := kept id _ (Array.getElem?_eq_getElem inRange)
    cases held.symm.trans found
    rw [agrees.name]
    exact plain.named id _ (Array.getElem?_eq_getElem inRange)

/-- What is added to the bindings of a plain tree has an unqualified name. -/
theorem Plain.named_push {binding : Binding} (plain : before.Plain)
    (pushed : after.bindings = before.bindings.push binding)
    (unqualified : binding.name.isQualified = false) (id : BindingId) (held : Binding)
    (found : after.binding? id = some held) : held.name.isQualified = false := by
  rw [binding?_push pushed] at found
  split at found
  · cases found
    exact unqualified
  · exact plain.named id held found

theorem Plain.updateFrame {change : Frame → Frame} {target : FrameId} (plain : before.Plain)
    (updated : before.updateFrame target change = some after)
    (stays : ∀ held : Frame, (change held).parent = held.parent ∧
      (change held).locals = held.locals ∧ (change held).captures = held.captures) :
    after.Plain := by
  obtain ⟨_, bound, captured⟩ := updateFrame_tables updated stays
  obtain ⟨_, _, bindings, _⟩ := updateFrame_some updated
  refine plain.of_same bound captured (fun id binding held => ?_) (by rw [bindings])
  exact ⟨binding, by rw [binding?, bindings]; exact held, .refl binding⟩

theorem Step.plain (step : Step before after) (plain : before.Plain) : after.Plain := by
  cases step with
  | @opened _ _ _ _ inner inRange opened =>
    obtain ⟨_, bindings, _⟩ := openFrame_some opened
    obtain ⟨others, unbound, uncaptured⟩ := openFrame_views opened
    refine ⟨fun id name binding found => ?_, fun id entry member => ?_, fun id binding held => ?_⟩
    · by_cases new : id = inner
      · rw [new, unbound] at found
        cases found
      · rw [(others id new).1] at found
        exact plain.bound id name binding found
    · by_cases new : id = inner
      · rw [new, uncaptured] at member
        cases member
      · rw [(others id new).2.1] at member
        exact plain.copied id entry member
    · rw [binding?, bindings] at held
      exact plain.named id binding held
  | filled _ _ filled => exact plain.updateFrame filled fun _ => ⟨rfl, rfl, rfl⟩
  | counted counted => exact plain.updateFrame counted fun _ => ⟨rfl, rfl, rfl⟩
  | bound unqualified bound =>
    obtain ⟨_, pushed, _⟩ := bind_some bound
    obtain ⟨tables, captured, _⟩ := bind_views bound
    -- Only the new name is added to the tables, and it is unqualified.
    refine ⟨fun id asked other found => ?_, fun id entry member => ?_,
      plain.named_push pushed unqualified⟩
    · rw [tables] at found
      split at found
      next same => rw [same.2, unqualified]
      next => exact plain.bound id asked other found
    · exact plain.copied id entry (captured id ▸ member)
  | copied unqualified copies =>
    refine ⟨fun id asked other found => ?_, fun id entry member => ?_,
      plain.named_push copies.bindings unqualified⟩
    · exact plain.bound id asked other ((copies.fills.sameNames.bound? id asked).symm.trans found)
    · rw [copies.captured] at member
      split at member
      · rcases List.mem_append.mp member with old | new
        · exact plain.copied id entry old
        · rw [List.mem_singleton.mp new]
          exact unqualified
      · exact plain.copied id entry member
  | noted noted =>
    exact plain.of_same (noteUse_fills noted).sameNames.bound? (noteUse_captured noted)
      (noteUse_keepsBindings noted) (noteUse_size noted)
  | marked _ updated => exact plain.updateFrame updated fun _ => ⟨rfl, rfl, rfl⟩
  | lifted lifts =>
    exact plain.of_same lifts.fills.sameNames.bound? lifts.captured lifts.fills.bindings
      (by rw [lifts.bindings])

theorem knows_initial : FrameTree.initial.Knows := by
  rintro (_ | id) frame held context <;> cases held
  cases context

/-- A tree whose frames know nothing new of functions. -/
theorem Knows.of_frames (knows : before.Knows) (size : after.frames.size = before.frames.size)
    (frames : ∀ id frame, before.frame? id = some frame → ∃ changed,
      after.frame? id = some changed ∧ changed.kind = frame.kind ∧
        changed.function?.isSome = frame.function?.isSome) : after.Knows := by
  intro id frame held context
  obtain ⟨changed, held', kind, function⟩ :=
    frames id _ (Array.getElem?_eq_getElem (size ▸ frame?_lt held))
  cases held.symm.trans held'
  rw [Frame.isFunction, kind]
  exact knows id _ (Array.getElem?_eq_getElem _) (function ▸ context)

theorem Knows.fills (knows : before.Knows) (fills : before.Fills after) : after.Knows := by
  refine knows.of_frames fills.size fun id frame held => ?_
  obtain ⟨filled, held, same⟩ := fills.frames id frame held
  exact ⟨filled, held, same.kind, by rw [same.function?]⟩

/-- One frame is changed, and knows no more of a function unless it is that of one. -/
theorem Knows.updateFrame {change : Frame → Frame} {target : FrameId} (knows : before.Knows)
    (updated : before.updateFrame target change = some after)
    (stays : ∀ held, before.frame? target = some held → (change held).kind = held.kind ∧
      ((change held).function?.isSome = true →
        held.function?.isSome = true ∨ held.isFunction = true)) : after.Knows := by
  obtain ⟨held, found, _, _, changed, others⟩ := updateFrame_some updated
  obtain ⟨kind, function⟩ := stays held found
  intro id frame present context
  by_cases here : id = target
  · subst here
    cases changed.symm.trans present
    rw [Frame.isFunction, kind]
    exact (function context).elim (knows id held found) fun function => function
  · exact knows id frame ((others id here).symm.trans present) context

theorem Step.knows (step : Step before after) (knows : before.Knows) : after.Knows := by
  cases step with
  | opened inRange opened =>
    obtain ⟨rfl, _, _, held, others⟩ := openFrame_some opened
    intro id frame present context
    by_cases new : id = before.frames.size
    -- What a new frame belongs to is not known yet.
    · subst new
      cases held.symm.trans present
      cases context
    · exact knows id frame ((others id new).symm.trans present) context
  | filled found function filled =>
    refine knows.updateFrame filled fun held present => ⟨rfl, fun _ => .inr ?_⟩
    cases found.symm.trans present
    exact function
  | counted counted => exact knows.updateFrame counted fun _ _ => ⟨rfl, .inl⟩
  | @bound _ _ target _ _ _ _ _ bound =>
    obtain ⟨_, _, size, ⟨held, found, changed⟩, others⟩ := bind_some bound
    refine knows.of_frames size fun id frame present => ?_
    by_cases here : id = target
    · subst here
      cases found.symm.trans present
      exact ⟨_, changed, rfl, rfl⟩
    · exact ⟨frame, (others id here).trans present, rfl, rfl⟩
  | copied plain copies => exact knows.fills copies.fills
  | noted noted => exact knows.fills (noteUse_fills noted)
  | marked _ updated =>
    refine knows.updateFrame updated fun held _ => ⟨rfl, fun known => .inl ?_⟩
    simpa [Frame.updateFunction] using known
  | lifted lifts => exact knows.fills lifts.fills

theorem Step.size (step : Step before after) : before.frames.size ≤ after.frames.size := by
  have updated {target : FrameId} {change : Frame → Frame}
      (updated : before.updateFrame target change = some after) :
      before.frames.size ≤ after.frames.size := by
    obtain ⟨_, _, _, size, _⟩ := updateFrame_some updated
    exact Nat.le_of_eq size.symm
  cases step with
  | opened inRange opened => exact (openFrame_grows opened).1.size
  | filled _ _ filled => exact updated filled
  | counted counted => exact updated counted
  | bound plain bound => exact (bind_grows bound).1.size
  | copied plain copies => exact copies.fills.grows.size
  | noted noted => exact (noteUse_fills noted).grows.size
  | marked _ marked => exact updated marked
  | lifted lifts => exact lifts.fills.grows.size

namespace Builds

variable {between : FrameTree}

theorem refl (tree : FrameTree) : tree.Builds tree := Relation.ReflTransGen.refl

theorem trans (first : before.Builds between) (second : between.Builds after) :
    before.Builds after :=
  Relation.ReflTransGen.trans first second

theorem of_step (step : Step before after) : before.Builds after := Relation.ReflTransGen.single step

theorem ordered (builds : before.Builds after) (ordered : before.Ordered) : after.Ordered := by
  induction builds with
  | refl => exact ordered
  | tail _ step ih => exact step.ordered ih

theorem plain (builds : before.Builds after) (plain : before.Plain) : after.Plain := by
  induction builds with
  | refl => exact plain
  | tail _ step ih => exact step.plain ih

theorem knows (builds : before.Builds after) (knows : before.Knows) : after.Knows := by
  induction builds with
  | refl => exact knows
  | tail _ step ih => exact step.knows ih

theorem size (builds : before.Builds after) : before.frames.size ≤ after.frames.size := by
  induction builds with
  | refl => exact Nat.le_refl _
  | tail _ step ih => exact ih.trans step.size

end Builds

theorem Built.ordered (built : tree.Built) : tree.Ordered := Builds.ordered built ordered_initial

theorem Built.plain (built : tree.Built) : tree.Plain := Builds.plain built plain_initial

theorem Built.knows (built : tree.Built) : tree.Knows := Builds.knows built knows_initial

/-! ### Operations that are made of steps -/

theorem copyInto_builds {name : Symbol} {source copy : BindingId} {frame : FrameId} {made : Bool}
    (plain : name.isQualified = false)
    (copied : tree.copyInto name source frame = some (copy, made, after)) : tree.Builds after := by
  rcases copyInto_some copied with ⟨_, rfl, _⟩ | ⟨_, copies⟩
  · exact .refl _
  · exact .of_step (.copied plain copies)

theorem copyIntoAll_builds {name : Symbol} {source : BindingId} {frames : List FrameId}
    {copies : List BindingId} {made : Bool} (plain : name.isQualified = false)
    (copied : tree.copyIntoAll name source frames = some (copies, made, after)) :
    tree.Builds after := by
  induction frames generalizing tree copies made with
  | nil =>
    cases copied
    exact .refl _
  | cons frame frames ih =>
    obtain ⟨_, _, between, _, _, head, tail, _, _⟩ := copyIntoAll_cons copied
    exact (copyInto_builds plain head).trans (ih tail)

theorem takeAlong_builds {target : FrameId} {captures : List (Symbol × BindingId)}
    (plain : ∀ entry ∈ captures, entry.1.isQualified = false)
    (taken : tree.takeAlong target captures = some after) : tree.Builds after := by
  induction captures generalizing tree with
  | nil =>
    cases taken
    exact .refl _
  | cons entry captures ih =>
    obtain ⟨here, others⟩ := List.forall_mem_cons.mp plain
    obtain ⟨_, _, between, head, tail⟩ := takeAlong_cons taken
    exact (copyInto_builds here head).trans (ih others tail)

/-- A captured binding is copied under its own name. -/
theorem Plain.capture_builds {found : Found BindingId} {use : BindingId} (plain : tree.Plain)
    (captured : tree.capture found = some (use, after)) : tree.Builds after := by
  obtain ⟨source, copies, made, between, held, copied, _, ending⟩ := capture_some captured
  have copying := copyIntoAll_builds (plain.named _ source held) copied
  rcases ending with ⟨_, rfl⟩ | ⟨_, noted⟩
  · exact copying
  · exact copying.trans (.of_step (.noted noted))

/-- What is taken along was copied under unqualified names before. -/
theorem Plain.captureSelf_builds {frame : FrameId} {found : Found FrameId} (plain : tree.Plain)
    (taken : tree.captureSelf frame found = some after) : tree.Builds after := by
  rcases captureSelf_some taken with ⟨_, rfl⟩ | ⟨_, nearest, held, _, present, along⟩
  · exact .refl _
  · refine takeAlong_builds (fun entry member => plain.copied found.target entry ?_) along
    simpa [captured, present] using member

/-! ### Lookups in built trees -/

/-- Every frame of a built tree has a lineage. -/
theorem Built.exists_lineage (built : tree.Built) {id : FrameId} (inRange : id < tree.frames.size) :
    ∃ lineage, tree.lineage id = some lineage := by
  obtain ⟨ids, path⟩ := Path.exists_of_frame built.ordered (Array.getElem?_eq_getElem inRange)
  exact lineage_of_path built.ordered path

theorem Plain.copy? (plain : tree.Plain) {id : FrameId} {name : Symbol} {copy : BindingId}
    (held : tree.copy? id name = some copy) : name.isQualified = false := by
  rw [copy?_eq_find?, Option.map_eq_some_iff] at held
  obtain ⟨entry, found, _⟩ := held
  obtain rfl : entry.1 = name := by simpa using List.find?_some found
  exact plain.copied id entry (List.mem_of_find?_eq_some found)

/-- A qualified symbol is not found on any lineage of a built tree. -/
theorem Built.findBinding_qualified (built : tree.Built) {id : FrameId} {lineage : Lineage}
    {name : Symbol} (climbed : tree.lineage id = some lineage) (qualified : name.isQualified = true)
    (allowCaptures : Bool) : lineage.findBinding allowCaptures name = none := by
  obtain ⟨_, frames⟩ := lineage_some climbed
  cases found : lineage.findBinding allowCaptures name with
  | none => rfl
  | some answer =>
    -- The frame that answers would bind or copy a qualified name.
    obtain ⟨_, holder, _, _, _, answers, _⟩ := search_some frames found
    obtain ⟨frame, held, answers⟩ := Option.bind_eq_some_iff.mp answers
    rw [Frame.binding?, Option.orElse_eq_some] at answers
    have plain : name.isQualified = false := by
      rcases answers with bound | ⟨_, copied⟩
      · exact built.plain.bound holder name answer.target (by simp [bound?, held, bound])
      · cases allowCaptures with
        | false => cases copied
        | true =>
          have copy : tree.copy? holder name = some answer.target := by
            simpa [FrameTree.copy?, held] using copied
          exact built.plain.copy? copy
    rw [qualified] at plain
    cases plain

end FrameTree

end LispScope
