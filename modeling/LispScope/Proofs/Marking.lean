import LispScope.Proofs.Usage
import Mathlib

/-!
# What a boxed use marks

A boxed use of a binding marks exactly what its value may stem from. Spreading stops at bindings that
are marked already, so this takes an invariant: whatever a marked binding was given is marked as
well. A tree in which this holds, and whose bindings were given locals of the tree only, is *settled*.
Every operation keeps a tree settled, and in a settled tree no use of a binding can fail.
-/
namespace LispScope

open Relation (ReflTransGen)

/-- A binding was given another one as it is. -/
def Aliased (bindings : Array Binding) (id other : BindingId) : Prop :=
  ∃ binding, bindings[id]? = some binding ∧ other ∈ binding.aliases

/-- What a marked binding was given is marked too, or pending; and it needs a box. -/
def Drained (pending : List BindingId) (bindings : Array Binding) : Prop :=
  ∀ (id : BindingId) (binding : Binding), bindings[id]? = some binding →
    binding.hasBoxedUse = true → binding.needsBox = true ∧
      ∀ other ∈ binding.aliases, Boxed bindings other ∨ other ∈ pending

/-- Uses leave what a binding was given. -/
theorem Binding.Agrees.mem_aliases {before after : Binding} (agrees : before.Agrees after)
    {other : BindingId} : other ∈ after.aliases ↔ other ∈ before.aliases := by
  rw [Binding.mem_aliases, Binding.mem_aliases, agrees.capturedFrom, agrees.initial]

/-! ### Spreading -/

section Spreading

variable {bindings marked : Array Binding} {pending : List BindingId}

theorem aliased_set {id : BindingId} (inRange : id < bindings.size) :
    Aliased (bindings.set id bindings[id].useBoxed) = Aliased bindings := by
  funext other next
  by_cases same : id = other
  · subst same
    simp [Aliased, inRange, Binding.useBoxed, Binding.aliases]
  · simp [Aliased, Array.getElem?_set_ne _ same]

theorem boxed_set {id other : BindingId} (inRange : id < bindings.size) :
    Boxed (bindings.set id bindings[id].useBoxed) other ↔ other = id ∨ Boxed bindings other := by
  by_cases same : id = other
  · subst same
    simp [Boxed, inRange, Binding.useBoxed]
  · simp [Boxed, Array.getElem?_set_ne _ same, Ne.symm same]

/-- Whatever is marked was so before or takes its value to a pending binding. -/
theorem reached_of_spread (spread : spreadBoxedUse bindings pending = some marked)
    {other : BindingId} (boxed : Boxed marked other) :
    Boxed bindings other ∨ ∃ id ∈ pending, ReflTransGen (Aliased bindings) id other := by
  fun_induction spreadBoxedUse bindings pending with
  | case1 bindings =>
    cases spread
    exact .inl boxed
  | case2 bindings id pending inRange before ih =>
    rcases ih spread with boxed | ⟨from_, member, reach⟩
    · exact .inl boxed
    · exact .inr ⟨from_, List.mem_cons_of_mem _ member, reach⟩
  | case3 bindings id pending inRange fresh used ih =>
    have here := ih spread
    rw [boxed_set inRange, aliased_set inRange] at here
    rcases here with (rfl | before) | ⟨from_, member, reach⟩
    · exact .inr ⟨_, List.mem_cons_self .., .refl⟩
    · exact .inl before
    -- A new pending binding is an alias of the one that is marked now.
    · rcases List.mem_append.mp member with given | member
      · have step : Aliased bindings id from_ := ⟨_, Array.getElem?_eq_getElem inRange, given⟩
        exact .inr ⟨id, List.mem_cons_self .., .head step reach⟩
      · exact .inr ⟨from_, List.mem_cons_of_mem _ member, reach⟩
  | case4 => cases spread

/-- Spreading marks all that is pending and leaves nothing to be done. -/
theorem drained_of_spread (drained : Drained pending bindings)
    (spread : spreadBoxedUse bindings pending = some marked) :
    Drained [] marked ∧ ∀ id ∈ pending, Boxed marked id := by
  fun_induction spreadBoxedUse bindings pending with
  | case1 bindings =>
    cases spread
    exact ⟨drained, List.forall_mem_nil _⟩
  | case2 bindings id pending inRange before ih =>
    have here : Boxed bindings id := ⟨_, Array.getElem?_eq_getElem inRange, before⟩
    have rest : Drained pending bindings := by
      intro other binding held flag
      obtain ⟨needs, flows⟩ := drained other binding held flag
      refine ⟨needs, fun next given => ?_⟩
      rcases flows next given with boxed | member
      · exact .inl boxed
      · rcases List.mem_cons.mp member with rfl | member
        · exact .inl here
        · exact .inr member
    obtain ⟨done, all⟩ := ih rest spread
    refine ⟨done, List.forall_mem_cons.mpr ⟨?_, all⟩⟩
    exact here.keeps (FrameTree.spreadBoxedUse_agrees spread)
  | case3 bindings id pending inRange fresh used ih =>
    have rest : Drained (used.aliases ++ pending) (bindings.set id used) := by
      intro other binding held flag
      by_cases same : id = other
      -- The binding that is marked now: what it was given is pending from here on.
      · subst same
        simp only [Array.getElem?_set_self inRange, Option.some.injEq] at held
        subst held
        exact ⟨rfl, fun next given => .inr (List.mem_append_left _ given)⟩
      · rw [Array.getElem?_set_ne _ same] at held
        obtain ⟨needs, flows⟩ := drained other binding held flag
        refine ⟨needs, fun next given => ?_⟩
        rw [boxed_set inRange]
        rcases flows next given with boxed | member
        · exact .inl (.inr boxed)
        · rcases List.mem_cons.mp member with rfl | member
          · exact .inl (.inl rfl)
          · exact .inr (List.mem_append_right _ member)
    obtain ⟨done, all⟩ := ih rest spread
    refine ⟨done, List.forall_mem_cons.mpr ⟨?_, fun other member =>
      all other (List.mem_append_right _ member)⟩⟩
    have here : Boxed (bindings.set id used) id := (boxed_set inRange).mpr (.inl rfl)
    exact here.keeps (FrameTree.spreadBoxedUse_agrees spread)
  | case4 => cases spread

/-- The marks are closed under the flow of values, which the marking does not change. -/
theorem boxed_of_flow (spread : spreadBoxedUse bindings pending = some marked)
    (drained : Drained [] marked) {first last : BindingId} (here : Boxed marked first)
    (flow : ReflTransGen (Aliased bindings) first last) : Boxed marked last := by
  induction flow with
  | refl => exact here
  | tail _ step ih =>
    obtain ⟨binding, present, given⟩ := step
    obtain ⟨kept, found, agrees⟩ := FrameTree.spreadBoxedUse_agrees spread _ _ present
    obtain ⟨_, found', flag⟩ := ih
    cases found.symm.trans found'
    have given := agrees.mem_aliases.mpr given
    exact ((drained _ _ found flag).2 _ given).resolve_right nofun

theorem spread_hasUnboxedUse (spread : spreadBoxedUse bindings pending = some marked)
    {id : BindingId} {before after : Binding} (held : bindings[id]? = some before)
    (found : marked[id]? = some after) : after.hasUnboxedUse = before.hasUnboxedUse := by
  fun_induction spreadBoxedUse bindings pending generalizing before with
  | case1 bindings =>
    cases spread
    cases held.symm.trans found
    rfl
  | case2 bindings next pending inRange boxed ih => exact ih spread held
  | case3 bindings next pending inRange fresh used ih =>
    by_cases same : next = id
    · subst same
      cases (Array.getElem?_eq_getElem inRange).symm.trans held
      have unused : used.hasUnboxedUse = bindings[next].hasUnboxedUse := rfl
      rw [← unused]
      exact ih spread (Array.getElem?_set_self inRange)
    · exact ih spread ((Array.getElem?_set_ne _ same).trans held)
  | case4 => cases spread

/-- Spreading succeeds if it meets bindings of the tree only. -/
theorem exists_spread (inside : ∀ id other, Aliased bindings id other → other < bindings.size)
    (known : ∀ id ∈ pending, id < bindings.size) :
    ∃ marked, spreadBoxedUse bindings pending = some marked := by
  fun_induction spreadBoxedUse bindings pending with
  | case1 bindings => exact ⟨bindings, rfl⟩
  | case2 bindings id pending inRange boxed ih =>
    exact ih inside fun other member => known other (List.mem_cons_of_mem _ member)
  | case3 bindings id pending inRange fresh used ih =>
    refine ih ?_ ?_
    · rw [aliased_set inRange, Array.size_set]
      exact inside
    · intro other member
      rw [Array.size_set]
      rcases List.mem_append.mp member with given | member
      · exact inside id other ⟨_, Array.getElem?_eq_getElem inRange, given⟩
      · exact known other (List.mem_cons_of_mem _ member)
  | case4 bindings id pending outside => exact absurd (known id (List.mem_cons_self ..)) outside

end Spreading

/-! ### Settled trees -/

namespace FrameTree

/-- Bindings were given locals of the tree only, and boxed uses have been spread. -/
structure Settled (tree : FrameTree) : Prop where
  inside : ∀ id other, Aliased tree.bindings id other → other < tree.bindings.size
  drained : Drained [] tree.bindings

variable {tree after : FrameTree}

theorem settled_initial : FrameTree.initial.Settled := by
  constructor
  · rintro id other ⟨binding, held, _⟩
    simp [FrameTree.initial] at held
  · intro id binding held
    simp [FrameTree.initial] at held

theorem Settled.of_bindings (settled : tree.Settled) (same : after.bindings = tree.bindings) :
    after.Settled := by
  obtain ⟨inside, drained⟩ := settled
  exact ⟨same ▸ inside, same ▸ drained⟩

/-- A new binding that is not marked, or was given nothing, leaves a tree settled. -/
theorem Settled.push {binding : Binding} (settled : tree.Settled)
    (pushed : after.bindings = tree.bindings.push binding)
    (given : ∀ other ∈ binding.aliases, other < tree.bindings.size)
    (marked : binding.hasBoxedUse = true → binding.needsBox = true ∧ binding.aliases = []) :
    after.Settled := by
  have keeps : KeepsAll tree.bindings after.bindings := keepsBindings_push pushed
  have size : after.bindings.size = tree.bindings.size + 1 := by rw [pushed, Array.size_push]
  constructor
  · rintro id other ⟨held, found, member⟩
    rw [← binding?, binding?_push pushed] at found
    split at found
    · cases found
      rw [size]
      exact Nat.lt_succ_of_lt (given other member)
    · rw [size]
      exact Nat.lt_succ_of_lt (settled.inside id other ⟨held, found, member⟩)
  · intro id held found flag
    rw [← binding?, binding?_push pushed] at found
    split at found
    · cases found
      obtain ⟨needs, none⟩ := marked flag
      exact ⟨needs, by simp [none]⟩
    · obtain ⟨needs, flows⟩ := settled.drained id held found flag
      exact ⟨needs, fun other member => (flows other member).imp_left (Boxed.keeps keeps)⟩

theorem Settled.bind {frame : FrameId} {name : Symbol} {initial : Option Expr} {needsBox : Bool}
    {binding : BindingId} (settled : tree.Settled)
    (known : ∀ value ∈ initial, ∀ other ∈ value.resultLocals, other < tree.bindings.size)
    (bound : tree.bind frame name initial needsBox = some (binding, after)) : after.Settled := by
  obtain ⟨_, pushed, _⟩ := bind_some bound
  refine settled.push pushed ?_ nofun
  intro other member
  obtain ⟨_, value, given, result⟩ := Binding.mem_aliases.mp member
  exact known value given other result

theorem Settled.copies {name : Symbol} {source copy : BindingId} {frame : FrameId}
    (settled : tree.Settled) (copies : Copies name source frame copy tree after) : after.Settled :=
  settled.push copies.bindings (by simp [Binding.aliases, Binding.copyOf])
    fun _ => ⟨rfl, by simp [Binding.aliases, Binding.copyOf]⟩

/-- In a settled tree, a use of a binding is noted. -/
theorem Settled.exists_noteUse (settled : tree.Settled) {id : BindingId}
    (inRange : id < tree.bindings.size) (boxed : Bool) :
    ∃ after, tree.noteUse id boxed = some after := by
  cases boxed with
  | false => exact ⟨_, by simp [noteUse, inRange]; rfl⟩
  | true =>
    have known : ∀ other ∈ [id], other < tree.bindings.size := by simpa using inRange
    obtain ⟨marked, spread⟩ := exists_spread settled.inside known
    exact ⟨_, by simp [noteUse, spread]; rfl⟩

theorem noteUse_spread {id : BindingId} (noted : tree.noteUse id true = some after) :
    spreadBoxedUse tree.bindings [id] = some after.bindings := by
  obtain ⟨_, ⟨_, spread⟩ | ⟨unboxed, _⟩⟩ := noteUse_some noted
  · exact spread
  · cases unboxed

/-- A boxed use is all there is to do in a settled tree. -/
theorem Settled.pending (settled : tree.Settled) (id : BindingId) : Drained [id] tree.bindings := by
  intro other binding held flag
  obtain ⟨needs, flows⟩ := settled.drained other binding held flag
  exact ⟨needs, fun next given => .inl ((flows next given).resolve_right nofun)⟩

/-- What a boxed use changes: a binding is marked if it was so before or if the use flows on to it, and
needs a box if it did so before or is marked. -/
theorem noteUse_boxed (settled : tree.Settled) {id : BindingId}
    (noted : tree.noteUse id true = some after) {other : BindingId} {before : Binding}
    (held : tree.binding? other = some before) :
    ∃ now, after.binding? other = some now ∧ before.Agrees now ∧
      (now.hasBoxedUse = true ↔
        before.hasBoxedUse = true ∨ ReflTransGen (Aliased tree.bindings) id other) ∧
      (now.needsBox = true ↔ before.needsBox = true ∨ now.hasBoxedUse = true) ∧
      now.hasUnboxedUse = before.hasUnboxedUse := by
  have spread := noteUse_spread noted
  obtain ⟨now, found, agrees⟩ := spreadBoxedUse_agrees spread other before held
  obtain ⟨drained, all⟩ := drained_of_spread (settled.pending id) spread
  refine ⟨now, found, agrees, ⟨fun flag => ?_, ?_⟩, ?_, spread_hasUnboxedUse spread held found⟩
  · rcases reached_of_spread spread ⟨now, found, flag⟩ with ⟨binding, present, marked⟩ | reached
    · cases held.symm.trans present
      exact .inl marked
    · obtain ⟨from_, member, reach⟩ := reached
      rw [List.mem_singleton.mp member] at reach
      exact .inr reach
  · rintro (flag | reach)
    · obtain ⟨kept, present, marked⟩ :=
        Boxed.keeps (spreadBoxedUse_agrees spread) ⟨before, held, flag⟩
      cases found.symm.trans present
      exact marked
    · have first : Boxed after.bindings id := all id (List.mem_singleton_self _)
      obtain ⟨kept, present, marked⟩ := boxed_of_flow spread drained first reach
      cases found.symm.trans present
      exact marked
  · rcases agrees.boxing with ⟨needs, boxed⟩ | ⟨needs, boxed⟩
    · rw [needs, boxed]
      refine ⟨.inl, ?_⟩
      rintro (needed | flag)
      · exact needed
      · exact (settled.drained other before held flag).1
    · simp [needs, boxed]

/-- What an unboxed use changes: the flag for such uses, and that of the binding alone. -/
theorem noteUse_unboxed {id : BindingId} (noted : tree.noteUse id false = some after)
    {other : BindingId} {before : Binding} (held : tree.binding? other = some before) :
    ∃ now, after.binding? other = some now ∧ before.Agrees now ∧
      now.hasBoxedUse = before.hasBoxedUse ∧ now.needsBox = before.needsBox ∧
      (now.hasUnboxedUse = true ↔ before.hasUnboxedUse = true ∨ id = other) := by
  obtain ⟨_, ⟨boxed, _⟩ | ⟨_, _, marked⟩⟩ := noteUse_some noted
  · cases boxed
  · have found : after.binding? other = some (if id = other then before.useUnboxed else before) := by
      rw [binding?] at held
      rw [binding?, marked, Array.getElem?_modify, held]
      split <;> rfl
    refine ⟨_, found, ?_⟩
    split
    next same => exact ⟨⟨rfl, rfl, rfl, rfl, .inl ⟨rfl, rfl⟩⟩, rfl, rfl, by simp [Binding.useUnboxed, same]⟩
    next differs => exact ⟨.refl before, rfl, rfl, by simp [differs]⟩

theorem Settled.noteUse (settled : tree.Settled) {id : BindingId} {boxed : Bool}
    (noted : tree.noteUse id boxed = some after) : after.Settled := by
  have size := noteUse_size noted
  have inside (other next : BindingId) (aliased : Aliased after.bindings other next) :
      next < after.bindings.size := by
    obtain ⟨now, found, given⟩ := aliased
    have inRange : other < tree.bindings.size := size ▸ binding?_lt found
    obtain ⟨kept, found', agrees⟩ :=
      noteUse_keepsBindings noted other _ (Array.getElem?_eq_getElem inRange)
    cases found.symm.trans found'
    rw [size]
    exact settled.inside other next
      ⟨_, Array.getElem?_eq_getElem inRange, agrees.mem_aliases.mp given⟩
  refine ⟨inside, ?_⟩
  cases boxed with
  | true => exact (drained_of_spread (settled.pending id) (noteUse_spread noted)).1
  -- An unboxed use marks nothing.
  | false =>
    have marks (other : BindingId) (boxed : Boxed tree.bindings other) : Boxed after.bindings other :=
      boxed.keeps (noteUse_keepsBindings noted)
    intro other now found flag
    have inRange : other < tree.bindings.size := size ▸ binding?_lt found
    have held : tree.binding? other = some tree.bindings[other] := Array.getElem?_eq_getElem inRange
    obtain ⟨kept, found', agrees, boxed, needed, _⟩ := noteUse_unboxed noted held
    cases found.symm.trans found'
    obtain ⟨needs, flows⟩ := settled.drained other _ held (boxed ▸ flag)
    refine ⟨needed.trans needs, fun next given => (flows next ?_).imp_left (marks next)⟩
    exact agrees.mem_aliases.mp given

theorem capture_captures {found : Found BindingId} {use : BindingId}
    (captured : tree.capture found = some (use, after)) : tree.Captures after := by
  obtain ⟨_, _, _, _, _, copied, _, ⟨_, rfl⟩ | ⟨_, spread⟩⟩ := capture_some captured
  · exact copyIntoAll_captures copied
  · exact (copyIntoAll_captures copied).trans (.use spread .done)

theorem Settled.captures (settled : tree.Settled) (captures : tree.Captures after) :
    after.Settled := by
  induction captures with
  | done => exact settled
  | copy copies _ ih => exact ih (settled.copies copies)
  | use noted _ ih => exact ih (settled.noteUse noted)

end FrameTree

end LispScope
