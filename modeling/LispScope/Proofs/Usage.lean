import LispScope.Host.Namespaces
import LispScope.Proofs.Enactment
import LispScope.Proofs.Occurrence
import LispScope.Proofs.Soundness

/-!
# Uses of bindings

The flags of a binding are noted use by use, and a boxed use stops flowing on where one has been
before. Whatever the order, what comes out is a least set: the copies, what they are copies of, the
locals that are used boxed, and everything the boxed ones among them take their value from.

The invariant is that of a work list: what a boxed binding flows on to is boxed or still pending.
-/
namespace LispScope

/-! ### The least set -/

/-- A binding is marked as having a boxed use. -/
def Boxed (bindings : Array Binding) (id : BindingId) : Prop :=
  ∃ binding, bindings[id]? = some binding ∧ binding.hasBoxedUse = true

/-- The bindings with a boxed use, where `uses` tells how the locals are used: every captured copy,
its source, every local that is used boxed, and whatever one of them, not being a copy, was given as
it is. -/
inductive BoxedUse (uses : BindingId → Bool → Prop) (bindings : Array Binding) : BindingId → Prop
  | copy {id : BindingId} (held : bindings[id]? = some binding)
      (copied : binding.capturedFrom = some source) : BoxedUse uses bindings id
  | source {id : BindingId} (held : bindings[id]? = some binding)
      (copied : binding.capturedFrom = some source) : BoxedUse uses bindings source
  | use {id : BindingId} (used : uses id true) : BoxedUse uses bindings id
  | flow {id : BindingId} (boxed : BoxedUse uses bindings id) (held : bindings[id]? = some binding)
      (original : binding.capturedFrom = none) (given : binding.initial = some value)
      (result : other ∈ value.resultLocals) : BoxedUse uses bindings other

/-- Every binding stays, apart from its uses. -/
def KeepsAll (before after : Array Binding) : Prop :=
  ∀ (id : BindingId) (binding : Binding), before[id]? = some binding →
    ∃ kept, after[id]? = some kept ∧ binding.Agrees kept

theorem Boxed.keeps {before after : Array Binding} {id : BindingId} (keeps : KeepsAll before after)
    (boxed : Boxed before id) : Boxed after id := by
  obtain ⟨binding, held, marked⟩ := boxed
  obtain ⟨kept, held, agrees⟩ := keeps id binding held
  refine ⟨kept, held, ?_⟩
  obtain ⟨_, same⟩ | ⟨_, forced⟩ := agrees.boxing
  · exact same.trans marked
  · exact forced

theorem BoxedUse.keeps {uses more : BindingId → Bool → Prop} {before after : Array Binding}
    {id : BindingId} (keeps : KeepsAll before after) (extends_ : ∀ id, uses id true → more id true)
    (boxed : BoxedUse uses before id) : BoxedUse more after id := by
  induction boxed with
  | copy held copied =>
    obtain ⟨kept, held, agrees⟩ := keeps _ _ held
    exact .copy held (agrees.capturedFrom.trans copied)
  | source held copied =>
    obtain ⟨kept, held, agrees⟩ := keeps _ _ held
    exact .source held (agrees.capturedFrom.trans copied)
  | use used => exact .use (extends_ _ used)
  | flow _ held original given result ih =>
    obtain ⟨kept, held, agrees⟩ := keeps _ _ held
    exact .flow ih held (agrees.capturedFrom.trans original) (agrees.initial.trans given) result

theorem Binding.mem_aliases {binding : Binding} {other : BindingId} :
    other ∈ binding.aliases ↔
      binding.capturedFrom = none ∧ ∃ value, binding.initial = some value ∧
        other ∈ value.resultLocals := by
  rw [aliases]
  cases binding.capturedFrom <;> cases binding.initial <;> simp

/-! ### The invariant -/

/-- The flags match the uses, apart from bindings that a boxed use has yet to reach. -/
structure Usage (uses : BindingId → Bool → Prop) (pending : List BindingId)
    (bindings : Array Binding) : Prop where
  unboxed_sound : ∀ (id : BindingId) (binding : Binding), bindings[id]? = some binding →
    binding.hasUnboxedUse = true → uses id false
  unboxed_complete : ∀ id, uses id false →
    ∃ binding, bindings[id]? = some binding ∧ binding.hasUnboxedUse = true
  boxed_sound : ∀ id, Boxed bindings id ∨ id ∈ pending → BoxedUse uses bindings id
  copies : ∀ (id : BindingId) (binding : Binding) (source : BindingId),
    bindings[id]? = some binding → binding.capturedFrom = some source →
    Boxed bindings id ∧ (Boxed bindings source ∨ source ∈ pending)
  used : ∀ id, uses id true → Boxed bindings id ∨ id ∈ pending
  flows : ∀ (id : BindingId) (binding : Binding), bindings[id]? = some binding →
    binding.hasBoxedUse = true → ∀ other ∈ binding.aliases, Boxed bindings other ∨ other ∈ pending
  needs : ∀ (id : BindingId) (binding : Binding), bindings[id]? = some binding →
    binding.hasBoxedUse = true → binding.needsBox = true

namespace Usage

variable {uses : BindingId → Bool → Prop} {pending : List BindingId} {bindings : Array Binding}

/-- When nothing is pending, the marked bindings are the least set. -/
theorem boxed_iff (usage : Usage uses [] bindings) {id : BindingId} :
    Boxed bindings id ↔ BoxedUse uses bindings id := by
  constructor
  · exact fun boxed => usage.boxed_sound id (.inl boxed)
  -- The marked bindings are closed under the rules of the least set.
  · intro boxed
    induction boxed with
    | copy held copied => exact (usage.copies _ _ _ held copied).1
    | source held copied => simpa using (usage.copies _ _ _ held copied).2
    | use used => simpa using usage.used _ used
    | flow _ held original given result ih =>
      obtain ⟨binding, held', marked⟩ := ih
      cases held.symm.trans held'
      have aliased := Binding.mem_aliases.mpr ⟨original, _, given, result⟩
      simpa using usage.flows _ _ held marked _ aliased

/-- The unboxed uses are those that were noted. -/
theorem unboxed_iff (usage : Usage uses pending bindings) {id : BindingId} {binding : Binding}
    (held : bindings[id]? = some binding) : uses id false ↔ binding.hasUnboxedUse = true := by
  constructor
  · intro used
    obtain ⟨binding', held', flag⟩ := usage.unboxed_complete id used
    cases held.symm.trans held'
    exact flag
  · exact usage.unboxed_sound id binding held

/-- What is boxed already need not stay on the work list. -/
theorem drop {id : BindingId} (usage : Usage uses (id :: pending) bindings)
    (boxed : Boxed bindings id) : Usage uses pending bindings := by
  have settled {other : BindingId} (reached : Boxed bindings other ∨ other ∈ id :: pending) :
      Boxed bindings other ∨ other ∈ pending := by
    obtain marked | member := reached
    · exact .inl marked
    · obtain rfl | member := List.mem_cons.mp member
      · exact .inl boxed
      · exact .inr member
  exact
    { usage with
      boxed_sound := fun other reached =>
        usage.boxed_sound other (reached.imp_right (List.mem_cons_of_mem _))
      copies := fun other binding source held copied =>
        (usage.copies other binding source held copied).imp_right settled
      used := fun other used => settled (usage.used other used)
      flows := fun other binding held marked result member =>
        settled (usage.flows other binding held marked result member) }

/-- The flags of one binding match the uses. -/
structure Fits (uses : BindingId → Bool → Prop) (pending : List BindingId)
    (bindings : Array Binding) (id : BindingId) (binding : Binding) : Prop where
  unboxed : binding.hasUnboxedUse = true → uses id false
  boxed : binding.hasBoxedUse = true → BoxedUse uses bindings id
  copies : ∀ source, binding.capturedFrom = some source →
    binding.hasBoxedUse = true ∧ (Boxed bindings source ∨ source ∈ pending)
  flows : binding.hasBoxedUse = true →
    ∀ other ∈ binding.aliases, Boxed bindings other ∨ other ∈ pending
  needs : binding.hasBoxedUse = true → binding.needsBox = true

/-- Bindings that stay as they are go on to match the uses. It remains to look at the others, at new
uses and at what is pending now. -/
theorem step {more : BindingId → Bool → Prop} {others : List BindingId} {after : Array Binding}
    (usage : Usage uses pending bindings) (keeps : KeepsAll bindings after)
    (extends_ : ∀ id boxed, uses id boxed → more id boxed)
    (settled : ∀ id, Boxed bindings id ∨ id ∈ pending → Boxed after id ∨ id ∈ others)
    (changed : ∀ (id : BindingId) (binding : Binding), after[id]? = some binding →
      bindings[id]? = some binding ∨ Fits more others after id binding)
    (unboxed : ∀ id, more id false →
      ∃ binding, after[id]? = some binding ∧ binding.hasUnboxedUse = true)
    (boxed : ∀ id, more id true → Boxed after id ∨ id ∈ others)
    (reached : ∀ id ∈ others, BoxedUse more after id) : Usage more others after := by
  constructor
  case unboxed_sound =>
    intro id binding held flag
    obtain old | fits := changed id binding held
    · exact extends_ id false (usage.unboxed_sound id binding old flag)
    · exact fits.unboxed flag
  case unboxed_complete => exact unboxed
  case boxed_sound =>
    intro id marked
    obtain ⟨binding, held, flag⟩ | member := marked
    · obtain old | fits := changed id binding held
      · have boxed := usage.boxed_sound id (.inl ⟨binding, old, flag⟩)
        exact boxed.keeps keeps fun id => extends_ id true
      · exact fits.boxed flag
    · exact reached id member
  case copies =>
    intro id binding source held copied
    obtain old | fits := changed id binding held
    · obtain ⟨boxed, source_⟩ := usage.copies id binding source old copied
      exact ⟨boxed.keeps keeps, settled source source_⟩
    · obtain ⟨flag, source_⟩ := fits.copies source copied
      exact ⟨⟨binding, held, flag⟩, source_⟩
  case used => exact boxed
  case flows =>
    intro id binding held flag other member
    obtain old | fits := changed id binding held
    · exact settled other (usage.flows id binding old flag other member)
    · exact fits.flows flag other member
  case needs =>
    intro id binding held flag
    obtain old | fits := changed id binding held
    · exact usage.needs id binding old flag
    · exact fits.needs flag

/-- A boxed use marks its binding and goes on to what that was given. -/
theorem mark {id : BindingId} (usage : Usage uses (id :: pending) bindings)
    (inRange : id < bindings.size) :
    Usage uses (bindings[id].useBoxed.aliases ++ pending)
      (bindings.set id bindings[id].useBoxed) := by
  have held : bindings[id]? = some bindings[id] := Array.getElem?_eq_getElem inRange
  have here : (bindings.set id bindings[id].useBoxed)[id]? = some bindings[id].useBoxed := by
    simp [inRange]
  have elsewhere {other : BindingId} (differs : other ≠ id) :
      (bindings.set id bindings[id].useBoxed)[other]? = bindings[other]? :=
    Array.getElem?_set_ne _ (Ne.symm differs)
  have keeps : KeepsAll bindings (bindings.set id bindings[id].useBoxed) := by
    intro other binding held'
    by_cases same : other = id
    · subst same
      cases held.symm.trans held'
      exact ⟨_, here, rfl, rfl, rfl, rfl, .inr ⟨rfl, rfl⟩⟩
    · exact ⟨binding, (elsewhere same).trans held', .refl binding⟩
  have pended {other : BindingId} (member : other ∈ id :: pending) :
      BoxedUse uses (bindings.set id bindings[id].useBoxed) other :=
    (usage.boxed_sound other (.inr member)).keeps keeps fun _ used => used
  have source := pended (List.mem_cons_self ..)
  have settled (other : BindingId) (reached : Boxed bindings other ∨ other ∈ id :: pending) :
      Boxed (bindings.set id bindings[id].useBoxed) other ∨
        other ∈ bindings[id].useBoxed.aliases ++ pending := by
    obtain boxed | member := reached
    · exact .inl (boxed.keeps keeps)
    · obtain rfl | member := List.mem_cons.mp member
      · exact .inl ⟨_, here, rfl⟩
      · exact .inr (List.mem_append_right _ member)
  refine usage.step keeps (fun _ _ used => used) settled ?_ ?_ ?_ ?_
  · intro other binding held'
    by_cases same : other = id
    · -- The marked binding flows on to its aliases, which are pending from now on.
      subst same
      cases here.symm.trans held'
      refine .inr ⟨fun flag => ?_, fun _ => source, ?_, ?_, fun _ => rfl⟩
      · exact usage.unboxed_sound other bindings[other] held flag
      · exact fun from_ copied => ⟨rfl, settled from_ (usage.copies other _ from_ held copied).2⟩
      · exact fun _ result member => .inr (List.mem_append_left _ member)
    · exact .inl ((elsewhere same).symm.trans held')
  · intro other used
    obtain ⟨binding, held', flag⟩ := usage.unboxed_complete other used
    by_cases same : other = id
    · subst same
      cases held.symm.trans held'
      exact ⟨_, here, flag⟩
    · exact ⟨binding, (elsewhere same).trans held', flag⟩
  · exact fun other used => settled other (usage.used other used)
  · intro other member
    obtain given | member := List.mem_append.mp member
    · obtain ⟨original, value, initial, result⟩ := Binding.mem_aliases.mp given
      exact .flow source here original initial result
    · exact pended (List.mem_cons_of_mem _ member)

/-- Spreading empties the work list. -/
theorem spread {marked : Array Binding} (usage : Usage uses pending bindings)
    (spread : spreadBoxedUse bindings pending = some marked) : Usage uses [] marked := by
  fun_induction spreadBoxedUse bindings pending with
  | case1 bindings =>
    cases spread
    exact usage
  -- A binding with a boxed use is skipped: what it flows on to is boxed or pending already.
  | case2 bindings id pending inRange boxed ih =>
    exact ih (usage.drop ⟨_, Array.getElem?_eq_getElem inRange, boxed⟩) spread
  | case3 bindings id pending inRange fresh used ih => exact ih (usage.mark inRange) spread
  | case4 => cases spread

/-- A new binding has no uses; only a copy is boxed from the beginning, and its source is to be. -/
theorem push (usage : Usage uses pending bindings) (binding : Binding)
    (unused : binding.hasUnboxedUse = false) (boxed : binding.hasBoxedUse = binding.isCapture)
    (needs : binding.hasBoxedUse = true → binding.needsBox = true) :
    Usage uses (binding.capturedFrom.toList ++ pending) (bindings.push binding) := by
  have here : (bindings.push binding)[bindings.size]? = some binding := Array.getElem?_push_size
  have stays {id : BindingId} {held : Binding} (found : bindings[id]? = some held) :
      (bindings.push binding)[id]? = some held := by
    have inRange : id < bindings.size := (Array.getElem?_eq_some_iff.mp found).1
    rw [Array.getElem?_push, if_neg (Nat.ne_of_lt inRange)]
    exact found
  have keeps : KeepsAll bindings (bindings.push binding) :=
    fun id held found => ⟨held, stays found, .refl held⟩
  have settled (id : BindingId) (reached : Boxed bindings id ∨ id ∈ pending) :
      Boxed (bindings.push binding) id ∨ id ∈ binding.capturedFrom.toList ++ pending :=
    reached.imp (Boxed.keeps keeps) (List.mem_append_right _)
  have source (marked : binding.hasBoxedUse = true) :
      ∃ source, binding.capturedFrom = some source := by
    rw [boxed, Binding.isCapture] at marked
    exact Option.isSome_iff_exists.mp marked
  have fits : Fits uses (binding.capturedFrom.toList ++ pending) (bindings.push binding)
      bindings.size binding := by
    refine ⟨fun flag => ?_, fun flag => ?_, fun from_ copied => ?_, fun flag other member => ?_,
      needs⟩
    · rw [unused] at flag
      cases flag
    · obtain ⟨_, copied⟩ := source flag
      exact .copy here copied
    · refine ⟨by rw [boxed, Binding.isCapture, copied]; rfl, .inr ?_⟩
      exact List.mem_append_left _ (Option.mem_toList.mpr copied)
    · -- Only a copy is boxed, and a copy was given nothing.
      obtain ⟨_, copied⟩ := source flag
      obtain ⟨original, _⟩ := Binding.mem_aliases.mp member
      rw [copied] at original
      cases original
  refine usage.step keeps (fun _ _ used => used) settled ?_ ?_ ?_ ?_
  · intro id held found
    rw [Array.getElem?_push] at found
    split at found
    next same =>
      cases found
      exact .inr (same ▸ fits)
    next => exact .inl found
  · intro id used
    obtain ⟨held, found, flag⟩ := usage.unboxed_complete id used
    exact ⟨held, stays found, flag⟩
  · exact fun id used => settled id (usage.used id used)
  · intro id member
    obtain copied | member := List.mem_append.mp member
    · exact .source here (Option.mem_toList.mp copied)
    · exact (usage.boxed_sound id (.inr member)).keeps keeps fun _ used => used

/-- A boxed use of a binding makes it pending. -/
theorem useBoxed (usage : Usage uses [] bindings) (id : BindingId) :
    Usage (fun other boxed => uses other boxed ∨ (other = id ∧ boxed = true)) [id] bindings := by
  have keeps : KeepsAll bindings bindings := fun _ binding held => ⟨binding, held, .refl binding⟩
  have settled (other : BindingId) (reached : Boxed bindings other ∨ other ∈ []) :
      Boxed bindings other ∨ other ∈ [id] := reached.imp_right nofun
  refine usage.step keeps (fun _ _ => .inl) settled (fun _ _ => .inl) ?_ ?_ ?_
  · intro other used
    exact usage.unboxed_complete other (used.resolve_right fun same => Bool.noConfusion same.2)
  · intro other used
    obtain used | ⟨rfl, _⟩ := used
    · exact settled other (usage.used other used)
    · exact .inr (List.mem_singleton_self _)
  · exact fun other member => .use (.inr ⟨List.mem_singleton.mp member, rfl⟩)

/-- An unboxed use changes one flag of its binding. -/
theorem useUnboxed (usage : Usage uses [] bindings) {id : BindingId} (inRange : id < bindings.size) :
    Usage (fun other boxed => uses other boxed ∨ (other = id ∧ boxed = false)) []
      (bindings.modify id Binding.useUnboxed) := by
  have keeps : KeepsAll bindings (bindings.modify id Binding.useUnboxed) := by
    intro other binding held
    rw [Array.getElem?_modify, held]
    split
    next => exact ⟨_, rfl, rfl, rfl, rfl, rfl, .inl ⟨rfl, rfl⟩⟩
    next => exact ⟨_, rfl, .refl binding⟩
  have settled (other : BindingId) (reached : Boxed bindings other ∨ other ∈ []) :
      Boxed (bindings.modify id Binding.useUnboxed) other ∨ other ∈ [] :=
    reached.imp_left (Boxed.keeps keeps)
  refine usage.step keeps (fun _ _ => .inl) settled ?_ ?_ ?_ nofun
  · intro other binding found
    rw [Array.getElem?_modify] at found
    split at found
    next same =>
      -- All but the one flag is that of the old binding.
      subst same
      obtain ⟨old, held, rfl⟩ := Option.map_eq_some_iff.mp found
      refine .inr ⟨fun _ => .inr ⟨rfl, rfl⟩, fun flag => ?_, fun from_ copied => ?_,
        fun flag other member => ?_, usage.needs id old held⟩
      · have boxed := usage.boxed_sound id (.inl ⟨old, held, flag⟩)
        exact boxed.keeps keeps fun _ used => .inl used
      · obtain ⟨⟨old', held', flag⟩, reached⟩ := usage.copies id old from_ held copied
        cases held.symm.trans held'
        exact ⟨flag, settled from_ reached⟩
      · exact settled other (usage.flows id old held flag other member)
    next => exact .inl found
  · intro other used
    rw [Array.getElem?_modify]
    split
    next same =>
      subst same
      exact ⟨_, by rw [Array.getElem?_eq_getElem inRange]; rfl, rfl⟩
    next differs =>
      exact usage.unboxed_complete other (used.resolve_right fun same => differs same.1.symm)
  · intro other used
    exact settled other (usage.used other (used.resolve_right fun same => Bool.noConfusion same.2))

/-- Only the elements of the work list matter. -/
theorem of_pending {others : List BindingId} (usage : Usage uses pending bindings)
    (same : ∀ id, id ∈ others ↔ id ∈ pending) : Usage uses others bindings := by
  have settled {id : BindingId} (reached : Boxed bindings id ∨ id ∈ pending) :
      Boxed bindings id ∨ id ∈ others := reached.imp_right (same id).mpr
  exact
    { usage with
      boxed_sound := fun id reached => usage.boxed_sound id (reached.imp_right (same id).mp)
      copies := fun id binding source held copied =>
        (usage.copies id binding source held copied).imp_right settled
      used := fun id used => settled (usage.used id used)
      flows := fun id binding held marked result member =>
        settled (usage.flows id binding held marked result member) }

theorem of_uses {others : BindingId → Bool → Prop} (usage : Usage uses pending bindings)
    (same : ∀ id boxed, others id boxed ↔ uses id boxed) : Usage others pending bindings := by
  have equal : others = uses := funext fun id => funext fun boxed => propext (same id boxed)
  rw [equal]
  exact usage

end Usage

/-! ### Steps and runs -/

namespace FrameTree

variable {uses : BindingId → Bool → Prop} {tree after : FrameTree}

theorem Copies.usage {pending : List BindingId} {name : Symbol} {source copy : BindingId}
    {frame : FrameId} (copies : Copies name source frame copy tree after)
    (usage : Usage uses pending tree.bindings) :
    Usage uses (source :: pending) after.bindings := by
  rw [copies.bindings]
  exact usage.push (.copyOf source name frame) rfl rfl fun _ => rfl

/-- Copies leave their source pending. -/
theorem copyIntoAll_usage {pending : List BindingId} {name : Symbol} {source : BindingId}
    {frames : List FrameId} {copies : List BindingId} {made : Bool}
    (usage : Usage uses pending tree.bindings)
    (copied : tree.copyIntoAll name source frames = some (copies, made, after)) :
    Usage uses (if made then source :: pending else pending) after.bindings := by
  induction frames generalizing tree copies made pending with
  | nil =>
    simp only [copyIntoAll] at copied
    cases copied
    exact usage
  | cons frame frames ih =>
    obtain ⟨copy, first, between, rest, more, head, tail, _, rfl⟩ := copyIntoAll_cons copied
    obtain ⟨rfl, rfl, _⟩ | ⟨rfl, copies⟩ := copyInto_some head
    · exact ih usage tail
    -- The source is pending once for each copy; once is enough.
    · refine (ih (copies.usage usage) tail).of_pending fun id => ?_
      cases more <;> simp

theorem noteUse_usage {binding : BindingId} {boxed : Bool} (usage : Usage uses [] tree.bindings)
    (noted : tree.noteUse binding boxed = some after) :
    Usage (fun id how => uses id how ∨ (id = binding ∧ how = boxed)) [] after.bindings := by
  obtain ⟨_, ⟨rfl, spread⟩ | ⟨rfl, inRange, marked⟩⟩ := noteUse_some noted
  · exact (usage.useBoxed binding).spread spread
  · rw [marked]
    exact usage.useUnboxed inRange

/-- Capturing makes copies, and boxes their source if there are any. -/
theorem capture_usage {found : Found BindingId} {use : BindingId}
    (usage : Usage uses [] tree.bindings) (captured : tree.capture found = some (use, after)) :
    Usage uses [] after.bindings := by
  obtain ⟨_, _, made, between, _, copied, _, ⟨rfl, rfl⟩ | ⟨rfl, noted⟩⟩ := capture_some captured
  · exact copyIntoAll_usage usage copied
  · obtain ⟨_, ⟨_, spread⟩ | ⟨unboxed, _⟩⟩ := noteUse_some noted
    · exact (copyIntoAll_usage usage copied).spread spread
    · cases unboxed

/-- What is taken along are copies of copies, which are boxed already. -/
theorem takeAlong_usage {target : FrameId} {captures : List (Symbol × BindingId)}
    (usage : Usage uses [] tree.bindings)
    (boxed : ∀ entry ∈ captures, Boxed tree.bindings entry.2)
    (taken : tree.takeAlong target captures = some after) : Usage uses [] after.bindings := by
  induction captures generalizing tree with
  | nil =>
    cases taken
    exact usage
  | cons entry captures ih =>
    obtain ⟨_, _, between, copied, rest⟩ := takeAlong_cons taken
    have keeps : KeepsAll tree.bindings between.bindings := (copyInto_captures copied).fills.bindings
    refine ih ?_ (fun other member => (boxed other (List.mem_cons_of_mem _ member)).keeps keeps) rest
    obtain ⟨_, rfl, _⟩ | ⟨_, copies⟩ := copyInto_some copied
    · exact usage
    -- The source is a copy itself, so it is boxed and nothing is left to do.
    · exact (copies.usage usage).drop ((boxed entry (List.mem_cons_self ..)).keeps keeps)

theorem captureSelf_usage {frame : FrameId} {found : Found FrameId} (sound : tree.Sound)
    (usage : Usage uses [] tree.bindings) (taken : tree.captureSelf frame found = some after) :
    Usage uses [] after.bindings := by
  obtain ⟨_, rfl⟩ | ⟨_, nearest, held, _, present, along⟩ := captureSelf_some taken
  · exact usage
  · refine takeAlong_usage usage (fun entry member => ?_) along
    have listed : (entry.1, entry.2) ∈ tree.captured found.target := by
      simpa [captured, present] using member
    obtain ⟨_, source, binding, found, _, _, copied⟩ :=
      sound.captures _ _ _ (sound.copy?_of_mem listed)
    exact (usage.copies _ binding source found copied).1

end FrameTree

/-- A node uses a binding in one way. -/
def Node.Uses (node : Node Expr) (id : BindingId) (boxed : Bool) : Prop :=
  ∃ name, node.localRef? = some (name, id, boxed)

theorem Effect.usage {uses : BindingId → Bool → Prop} {frame : FrameId} {node : Node Expr}
    {before after : FrameTree} (effect : Effect frame node before after) (sound : before.Sound)
    (usage : Usage uses [] before.bindings) :
    Usage (fun id boxed => uses id boxed ∨ node.Uses id boxed) [] after.bindings := by
  cases effect with
  | lifts notLocal _ lifts =>
    rw [lifts.bindings]
    exact usage.of_uses fun id boxed => by simp [Node.Uses, notLocal]
  | uses local? _ _ captured noted =>
    refine (FrameTree.noteUse_usage (FrameTree.capture_usage usage captured) noted).of_uses ?_
    intro id boxed
    simp [Node.Uses, local?, eq_comm]
  | recurs notLocal _ _ taken marked =>
    have between := (FrameTree.captureSelf_usage sound usage taken).of_uses fun id boxed =>
      (by simp [Node.Uses, notLocal] : uses id boxed ∨ node.Uses id boxed ↔ uses id boxed)
    obtain ⟨_, rfl⟩ | ⟨_, updated⟩ := marked
    · exact between
    · obtain ⟨_, _, same, _⟩ := FrameTree.updateFrame_some updated
      rw [same]
      exact between

theorem Binds.usage {uses : BindingId → Bool → Prop} {frame : FrameId} {binding : BindingId}
    {how : Introduction} {before after : FrameTree} (binds : Binds frame binding how before after)
    (usage : Usage uses [] before.bindings) : Usage uses [] after.bindings := by
  obtain ⟨name, initial, needsBox, _, bound⟩ := binds.bound
  obtain ⟨_, pushed, _⟩ := FrameTree.bind_some bound
  rw [pushed]
  exact usage.push (.fresh name frame initial needsBox) rfl rfl nofun

theorem Ends.bindings {node : Node Expr} {before after : Store} (ends : Ends node before after) :
    after.tree.bindings = before.tree.bindings := by
  cases ends with
  | jump _ marked =>
    obtain ⟨_, _, same, _⟩ := FrameTree.updateFrame_some marked
    exact same
  | idle => rfl

/-- A run keeps the flags in step with the uses that its script reaches. -/
theorem Enacts.usage {uses : BindingId → Bool → Prop} {config : Config} {frame : FrameId}
    {ids : List FrameId} {steps : List Step} {before after : Store}
    (run : Enacts config frame steps before after) (path : before.tree.Path frame ids)
    (sound : before.tree.Sound) (usage : Usage uses [] before.tree.bindings) :
    Usage (fun id boxed => uses id boxed ∨ ∃ expr ∈ reached steps, expr.node.Uses id boxed) []
      after.tree.bindings := by
  induction run generalizing ids uses with
  | done => exact usage.of_uses fun id boxed => by simp
  | bind binds _ ih =>
    refine (ih (path.grows binds.grows.1) (binds.sound sound) (binds.usage usage)).of_uses ?_
    exact fun id boxed => by simp
  | count counts _ ih =>
    have usage' : Usage uses [] _ := counts.bindings ▸ usage
    refine (ih (path.grows counts.grows.1) (counts.sound sound) usage').of_uses ?_
    exact fun id boxed => by simp
  | block opened _ within _ inside rest =>
    have grows := (FrameTree.enter_grows opened).1
    obtain ⟨_, bindings, _⟩ := FrameTree.enter_some opened
    have sound' := sound.enter path opened
    have inner := path.opened opened
    have usage' := inside inner sound' (bindings ▸ usage)
    refine (rest (path.grows (grows.trans within.grows)) (within.sound inner sound')
      usage').of_uses fun id boxed => ?_
    simp [or_and_right, exists_or, or_assoc]
  | visit _ begins within ends _ follows rest =>
    have effect := begins.effect
    have begun := path.grows effect.grows.1
    have sound' := effect.sound path sound
    have followed := within.sound begun sound'
    have usage' := follows begun sound' (effect.usage sound usage)
    -- A note on a function concerns no binding.
    rw [← ends.bindings] at usage'
    refine (rest ((begun.grows within.grows).grows ends.grows.1) (ends.sound followed)
      usage').of_uses fun id boxed => ?_
    simp [or_and_right, exists_or, or_assoc]

/-! ### Initial values -/

/-- Each pair of a script binds its name once the value is there. -/
theorem Enacts.pairs_bound {config : Config} {frame : FrameId} {isLoop : Bool}
    {pairs : List (BindingId × Expr)} {steps : List Step} {before after : Store}
    (run : Enacts config frame (pairScript isLoop pairs ++ steps) before after)
    {pair : BindingId × Expr} (member : pair ∈ pairs) :
    ∃ earlier later, Binds frame pair.1 (.initial isLoop pair.2) earlier later ∧
      later.Grows after.tree := by
  induction pairs generalizing before with
  | nil => cases member
  | cons first pairs ih =>
    have split : pairScript isLoop (first :: pairs) ++ steps =
        .visit (.operandAs false) first.2 :: .bind first.1 (.initial isLoop first.2) ::
          (pairScript isLoop pairs ++ steps) := rfl
    rw [split] at run
    cases run with
    | visit _ _ _ _ run =>
      cases run with
      | bind binds rest =>
        obtain rfl | member := List.mem_cons.mp member
        · exact ⟨_, _, binds, rest.grows⟩
        · exact ih rest member

/-- The names of every `let*` or `loop*` that a script reaches were bound on the way. -/
theorem Enacts.lets_bound {config : Config} {frame : FrameId} {steps : List Step}
    {before after : Store} (run : Enacts config frame steps before after) {expr : Expr}
    (member : expr ∈ reached steps) {isLoop : Bool} {pairs : List (BindingId × Expr)} {body : Expr}
    {inner : FrameId} (lets : expr.node = .lets isLoop pairs body inner) {pair : BindingId × Expr}
    (among : pair ∈ pairs) :
    ∃ at_ earlier later, Binds at_ pair.1 (.initial isLoop pair.2) earlier later ∧
      later.Grows after.tree := by
  induction run with
  | done => simp at member
  | bind _ _ ih => exact ih (by simpa using member)
  | count _ _ ih => exact ih (by simpa using member)
  | block _ _ _ run inside rest =>
    rw [reached_block, List.mem_append] at member
    obtain member | member := member
    · obtain ⟨at_, earlier, later, binds, grows⟩ := inside member
      exact ⟨at_, earlier, later, binds, grows.trans run.grows⟩
    · exact rest member
  | visit _ _ within ends run follows rest =>
    have later := ends.grows.1.trans run.grows
    rw [reached_visit, List.mem_cons, List.mem_append] at member
    obtain rfl | member | member := member
    · rw [lets, Node.script] at within
      cases within with
      | block _ _ inside done =>
        rw [List.append_assoc] at inside
        obtain ⟨earlier, later', binds, grows⟩ := inside.pairs_bound among
        exact ⟨_, earlier, later', binds, grows.trans (done.grows.trans later)⟩
    · obtain ⟨at_, earlier, later', binds, grows⟩ := follows member
      exact ⟨at_, earlier, later', binds, grows.trans later⟩
    · exact rest member

/-- A name needs a box if its initial value does or if it has a boxed use. -/
theorem Binds.needsBox_iff {frame : FrameId} {binding : BindingId} {isLoop : Bool} {value : Expr}
    {before after final : FrameTree}
    (binds : Binds frame binding (.initial isLoop value) before after) (grows : after.Grows final) :
    ∃ held unboxable, final.binding? binding = some held ∧
      before.isUnboxable value = some unboxable ∧
      (held.needsBox = true ↔ unboxable = false ∨ held.hasBoxedUse = true) := by
  cases binds with
  | initial _ judged bound =>
    obtain ⟨next, pushed, _⟩ := FrameTree.bind_some bound
    have here := FrameTree.binding?_push pushed binding
    rw [if_pos next] at here
    obtain ⟨kept, found, agrees⟩ := grows.bindings _ _ here
    refine ⟨kept, _, found, judged, ?_⟩
    -- Afterwards a box is asked for only along with a boxed use.
    obtain ⟨needsBox, boxed⟩ | ⟨needsBox, boxed⟩ := agrees.boxing
    · rw [needsBox, boxed]
      simp [Binding.fresh]
    · simp [needsBox, boxed]

theorem FrameTree.isUnboxable_eq {value : Expr} (notLocal : value.node.localRef? = none)
    (tree other : FrameTree) : tree.isUnboxable value = other.isUnboxable value := by
  rw [isUnboxable, isUnboxable]
  cases node : value.node <;> first | rfl | simp [node, Node.localRef?] at notLocal

/-! ### All uses of a result -/

/-- Some node of the expression uses a binding, boxed or not. -/
def Expr.Uses (expr : Expr) (id : BindingId) (boxed : Bool) : Prop :=
  ∃ found ∈ expr.walk, ∃ name, found.node = .localRef name id boxed

theorem Node.localRef?_eq_some {node : Node ε} {name : Symbol} {id : BindingId} {boxed : Bool} :
    node.localRef? = some (name, id, boxed) ↔ node = .localRef name id boxed := by
  cases node <;> simp [localRef?]

theorem Analysis.usage {σ : Type} {analyzer : Analyzer σ} {depth : Nat} {form : Form}
    {session : Session σ} {analysis : Analysis}
    (analyzed : ((Session.analyze analyzer depth form).run session).1 = .ok analysis) :
    Usage analysis.expr.Uses [] analysis.tree.bindings := by
  obtain ⟨names, run⟩ := Session.analyze_enacts analyzed
  have start : Usage (fun _ _ => False) [] FrameTree.initial.bindings := by
    constructor <;> simp [FrameTree.initial, Boxed]
  refine (run.usage (.root rfl rfl) FrameTree.sound_initial start).of_uses fun id boxed => ?_
  simp [Expr.Uses, Node.Uses, Node.localRef?_eq_some, reached, visited]

/-- The least set depends on the uses, the sources and what flows where only. -/
theorem BoxedUse.congr {uses others : BindingId → Bool → Prop} {bindings : Array Binding}
    {tree : Array Binding} (same : ∀ id boxed, uses id boxed → others id boxed)
    (alike : ∀ id : BindingId, (tree[id]?.map fun binding => (binding.capturedFrom, binding.aliases)) =
      bindings[id]?.map fun binding => (binding.capturedFrom, binding.aliases))
    {id : BindingId} (boxed : BoxedUse uses bindings id) : BoxedUse others tree id := by
  have other {id : BindingId} {binding : Binding} (held : bindings[id]? = some binding) :
      ∃ held', tree[id]? = some held' ∧ held'.capturedFrom = binding.capturedFrom ∧
        held'.aliases = binding.aliases := by
    have := alike id
    rw [held, Option.map_some, Option.map_eq_some_iff] at this
    obtain ⟨held', found, equal⟩ := this
    exact ⟨held', found, Prod.mk.inj equal⟩
  induction boxed with
  | copy held copied =>
    obtain ⟨_, held, sources, _⟩ := other held
    exact .copy held (sources.trans copied)
  | source held copied =>
    obtain ⟨_, held, sources, _⟩ := other held
    exact .source held (sources.trans copied)
  | use used => exact .use (same _ _ used)
  | flow _ held original given result ih =>
    obtain ⟨held', held, sources, aliases⟩ := other held
    have flows : _ ∈ held'.aliases :=
      aliases ▸ Binding.mem_aliases.mpr ⟨original, _, given, result⟩
    obtain ⟨original, value, given, result⟩ := Binding.mem_aliases.mp flows
    exact .flow ih held original given result

/-- The uses that the flags of a binding record. -/
def Binding.noted (binding : Binding) : Bool × Bool := (binding.hasBoxedUse, binding.hasUnboxedUse)

/-- Flags that match the same uses are the same. -/
theorem Usage.noted_eq {uses others : BindingId → Bool → Prop} {bindings tree : Array Binding}
    (usage : Usage uses [] bindings) (usage' : Usage others [] tree)
    (same : ∀ id boxed, others id boxed ↔ uses id boxed)
    (alike : ∀ id : BindingId, (tree[id]?.map fun binding => (binding.capturedFrom, binding.aliases)) =
      bindings[id]?.map fun binding => (binding.capturedFrom, binding.aliases)) (id : BindingId) :
    tree[id]?.map Binding.noted = bindings[id]?.map Binding.noted := by
  have shapes := alike id
  cases held : bindings[id]? with
  | none =>
    rw [held, Option.map_none, Option.map_eq_none_iff] at shapes
    simp [shapes]
  | some binding =>
    rw [held, Option.map_some, Option.map_eq_some_iff] at shapes
    obtain ⟨binding', held', _⟩ := shapes
    -- Both flags are determined by the uses: one by the least set, the other directly.
    have boxed : binding'.hasBoxedUse = true ↔ binding.hasBoxedUse = true := by
      have boxed' : Boxed tree id ↔ binding'.hasBoxedUse = true := by simp [Boxed, held']
      have boxed : Boxed bindings id ↔ binding.hasBoxedUse = true := by simp [Boxed, held]
      rw [← boxed', ← boxed, usage.boxed_iff, usage'.boxed_iff]
      constructor
      · exact .congr (fun id boxed => (same id boxed).mp) fun id => (alike id).symm
      · exact .congr (fun id boxed => (same id boxed).mpr) alike
    have unboxed : binding'.hasUnboxedUse = true ↔ binding.hasUnboxedUse = true := by
      rw [← usage.unboxed_iff held, ← usage'.unboxed_iff held', same]
    simp [held', Binding.noted, Bool.eq_iff_iff.mpr boxed, Bool.eq_iff_iff.mpr unboxed]

/-- The flags of all bindings are the least ones that match the uses. A binding has an unboxed use
if some node uses it unboxed. The bindings with a boxed use are the captured copies, their sources,
those that some node uses boxed, and, for each of them that is not a copy, the locals that its
initial value may be. A boxed use calls for a box; a name whose initial value is not a local needs
one just if the value is not unboxable or if it has a boxed use. So the flags do not depend on the
order of the uses. -/
theorem Session.analyze_usage {σ : Type} {analyzer : Analyzer σ} {depth : Nat} {form : Form}
    {session : Session σ} {analysis : Analysis}
    (analyzed : ((Session.analyze analyzer depth form).run session).1 = .ok analysis) :
    (∀ id binding, analysis.tree.binding? id = some binding →
      (binding.hasUnboxedUse = true ↔ analysis.expr.Uses id false)) ∧
    (∀ id, (∃ binding, analysis.tree.binding? id = some binding ∧ binding.hasBoxedUse = true) ↔
      BoxedUse analysis.expr.Uses analysis.tree.bindings id) ∧
    (∀ id binding, analysis.tree.binding? id = some binding →
      binding.hasBoxedUse = true → binding.needsBox = true) ∧
    (∀ expr ∈ analysis.expr.walk, ∀ isLoop pairs body frame,
      expr.node = .lets isLoop pairs body frame →
      ∀ pair ∈ pairs, (∀ name id boxed, pair.2.node ≠ .localRef name id boxed) →
        ∃ binding unboxable, analysis.tree.binding? pair.1 = some binding ∧
          analysis.tree.isUnboxable pair.2 = some unboxable ∧
          (binding.needsBox = true ↔ unboxable = false ∨ binding.hasBoxedUse = true)) ∧
    (∀ (τ : Type) (analyzer' : Analyzer τ) (depth' : Nat) (form' : Form) (session' : Session τ)
      (analysis' : Analysis),
      ((Session.analyze analyzer' depth' form').run session').1 = .ok analysis' →
      (∀ id boxed, analysis'.expr.Uses id boxed ↔ analysis.expr.Uses id boxed) →
      (∀ id, ((analysis'.tree.binding? id).map fun binding =>
          (binding.capturedFrom, binding.aliases)) =
        (analysis.tree.binding? id).map fun binding => (binding.capturedFrom, binding.aliases)) →
      ∀ id, (analysis'.tree.binding? id).map Binding.noted =
        (analysis.tree.binding? id).map Binding.noted) := by
  have usage := Analysis.usage analyzed
  refine ⟨?_, ?_, ?_, ?_, ?_⟩
  · exact fun id binding held => (usage.unboxed_iff held).symm
  · exact fun id => usage.boxed_iff
  · exact usage.needs
  · intro expr member isLoop pairs body frame lets pair among notLocal
    obtain ⟨names, run⟩ := Session.analyze_enacts analyzed
    have reaches : expr ∈ reached [.visit .operand analysis.expr] := by
      simpa [reached, visited] using member
    obtain ⟨_, earlier, later, binds, grows⟩ := run.lets_bound reaches lets among
    obtain ⟨binding, unboxable, held, judged, needsBox⟩ := binds.needsBox_iff grows
    -- Whether a value is unboxable depends on the tree only for a local.
    have plain : pair.2.node.localRef? = none := by
      cases node : pair.2.node with
      | localRef name id boxed => exact absurd node (notLocal name id boxed)
      | _ => rfl
    exact ⟨binding, unboxable, held, FrameTree.isUnboxable_eq plain _ earlier ▸ judged, needsBox⟩
  · intro τ analyzer' depth' form' session' analysis' analyzed' same alike id
    exact usage.noted_eq (Analysis.usage analyzed') same alike id

/-- `(let* [x true y (if nil x (do x))] y)`. -/
def renamed : Form :=
  let symbol (name : String) : Form := .symbol (.simple name) .synthetic
  let list (items : List Form) : Form := .list items .synthetic
  let nil : Form := .atom .nil .synthetic
  list [symbol "let*", .vector [symbol "x", .atom (.bool true) .synthetic, symbol "y",
    list [symbol "if", nil, symbol "x", list [symbol "do", symbol "x"]]] .synthetic, symbol "y"]

/-- In `renamed` no node uses the first name boxed. But the second one may have its value, and is used
boxed; so the first one has a boxed use, too, and needs a box for its truth value. -/
theorem renamed_usage : ∃ analysis binding,
    ((Session.analyze ⟨Namespaces.host, .standard⟩ 5 renamed).run (.start (.inside "user"))).1 =
      .ok analysis ∧
    analysis.tree.binding? 0 = some binding ∧ analysis.expr.Uses 0 false ∧
    ¬ analysis.expr.Uses 0 true ∧ BoxedUse analysis.expr.Uses analysis.tree.bindings 0 ∧
    binding.needsBox = true := by
  have marked : (((Session.analyze ⟨Namespaces.host, .standard⟩ 5 renamed).run
      (.start (.inside "user"))).1.toOption.bind fun analysis =>
        (analysis.tree.binding? 0).map fun binding =>
          (binding.hasUnboxedUse, binding.hasBoxedUse,
            analysis.expr.walk.filterMap fun found => found.node.localRef?)) =
      some (true, true, [(.simple "x", 0, false), (.simple "x", 0, false), (.simple "y", 1, true)]) := by
    cbv
  simp only [Option.bind_eq_some_iff, Option.map_eq_some_iff, Prod.mk.injEq] at marked
  obtain ⟨analysis, found, binding, held, unboxed, boxed, references⟩ := marked
  have analyzed := ok_of_toOption found
  obtain ⟨unboxedUses, boxedUses, needs, _⟩ := Session.analyze_usage analyzed
  refine ⟨analysis, binding, analyzed, held, (unboxedUses 0 binding held).mp unboxed, ?_,
    (boxedUses 0).mp ⟨binding, held, boxed⟩, needs 0 binding held boxed⟩
  rintro ⟨used, member, name, node⟩
  have listed : (name, 0, true) ∈ analysis.expr.walk.filterMap fun found => found.node.localRef? :=
    List.mem_filterMap.mpr ⟨used, member, Node.localRef?_eq_some.mpr node⟩
  rw [references] at listed
  simp at listed

end LispScope
