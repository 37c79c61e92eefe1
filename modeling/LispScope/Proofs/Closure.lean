import LispScope.Host.Namespaces
import LispScope.Proofs.Origin
import Mathlib

/-!
# Closures

What functions capture, as long as no reference to an enclosing function crosses another one. A name
that is used inside a function is *foreign* to it if it goes back to a binding outside. A function
holds copies of exactly its foreign names, in the order in which they first occur in its body, and
each of them goes back to the binding that the references go back to. A function around holds a copy
as well, unless the binding belongs to it.
-/
namespace LispScope

/-- Whether a frame is another one or lies around it. -/
def FrameTree.encloses (tree : FrameTree) (outer inner : FrameId) : Bool :=
  (tree.lineage inner).any fun lineage => lineage.any fun entry => entry.1 == outer

/-- Whether a binding goes back to a binding outside of a frame. -/
def FrameTree.isForeign (tree : FrameTree) (frame : FrameId) (binding : BindingId) : Bool :=
  ((tree.origin? binding).bind tree.binding?).any fun origin => !tree.encloses frame origin.frame

/-- The name of a reference to a binding that is foreign to a frame. -/
def Expr.foreign? (tree : FrameTree) (frame : FrameId) (expr : Expr) : Option Symbol :=
  match expr.node.localRef? with
  | some (name, binding, _) => if tree.isForeign frame binding then some name else none
  | none => none

/-- The names in an expression that are foreign to a frame, in the order of the walk. -/
def Expr.foreign (tree : FrameTree) (frame : FrameId) (expr : Expr) : List Symbol :=
  expr.walk.filterMap (Expr.foreign? tree frame)

/-- The arities of a node. -/
def Node.arities : Node ε → List (Arity ε)
  | function _ _ arities => arities
  | _ => []

/-- All arities in an expression. -/
def Expr.arities (expr : Expr) : List (Arity Expr) :=
  expr.walk.flatMap fun found => found.node.arities

namespace FrameTree

variable {tree before after : FrameTree} {id frame : FrameId} {ids : List FrameId}

theorem frame_of_isFunction (function : tree.isFunction id = true) :
    ∃ frame, tree.frame? id = some frame := by
  rw [isFunction, Option.any_eq_true] at function
  obtain ⟨frame, held, _⟩ := function
  exact ⟨frame, held⟩

/-- The names of the copies that a frame holds, oldest first. -/
def keys (tree : FrameTree) (id : FrameId) : List Symbol := (tree.captured id).map Prod.fst

/-- On a path, the frames around a frame are those with smaller numbers. -/
theorem Path.encloses_iff {outer : FrameId} (path : tree.Path id ids) (ordered : tree.Ordered)
    (member : frame ∈ ids) (member' : outer ∈ ids) :
    tree.encloses outer frame = true ↔ outer ≤ frame := by
  obtain ⟨front, rest, rfl⟩ := List.append_of_mem member
  obtain ⟨lineage, climbed⟩ := lineage_of_path ordered path.suffix
  have along := (lineage_some climbed).1.unique path.suffix
  have listed : tree.encloses outer frame = true ↔ outer ∈ frame :: rest := by
    rw [← along]
    simp [encloses, climbed]
  have decreasing := path.decreasing ordered
  rw [List.pairwise_append, List.pairwise_cons] at decreasing
  obtain ⟨_, ⟨below, _⟩, above⟩ := decreasing
  rw [listed, List.mem_cons]
  constructor
  · rintro (rfl | further)
    · exact Nat.le_refl _
    · exact Nat.le_of_lt (below outer further)
  · intro further
    obtain inside | outside := List.mem_append.mp member'
    · exact absurd (above outer inside frame (List.mem_cons_self ..)) (Nat.not_lt.mpr further)
    · exact List.mem_cons.mp outside

/-- On a path, a binding is foreign to the frames inside the frame of its origin. -/
theorem isForeign_iff {name : Symbol} {binding origin : BindingId} {holders : List FrameId}
    {outermost : FrameId} (sound : tree.Sound) (path : tree.Path id ids)
    (trail : tree.Trail binding holders origin) (original : tree.Entry origin name outermost none)
    (member : outermost ∈ ids) (member' : frame ∈ ids) :
    tree.isForeign frame binding = true ↔ outermost < frame := by
  have followed := sound.origin?_iff.mpr ⟨holders, trail⟩
  obtain ⟨held, found, _, rfl, _⟩ := original
  have encloses := path.encloses_iff sound.ordered member member'
  simp only [isForeign, followed, Option.bind_some, found, Option.any_some, Bool.not_eq_true',
    ← Bool.not_eq_true, encloses, Nat.not_le]

/-- Where a use leads if all copies are relayed: all functions before the origin hold a copy of it,
and the use refers to the copy of the nearest of them, or else to the origin itself. -/
theorem use_origin {name : Symbol} {source binding : BindingId} {crossed : List FrameId}
    {boxed : Bool} {between : FrameTree} (sound : before.Sound) (path : before.Path id ids)
    (refers : before.Refers id name ⟨.binding source, crossed⟩)
    (captured : before.capture ⟨source, crossed⟩ = some (binding, between))
    (noted : between.noteUse binding boxed = some after) (closed : after.Closed) :
    ∃ holders origin outermost, after.Trail binding holders origin ∧
      after.Entry origin name outermost none ∧ outermost ∈ ids ∧
      (∀ other ∈ ids, after.isFunction other = true → outermost < other →
        ∃ held others, after.copy? other name = some held ∧ after.Trail held others origin) ∧
      ((binding = origin ∧ ∀ other ∈ ids, after.isFunction other = true → other ≤ outermost) ∨
        ∃ nearest, (ids.filter after.isFunction).head? = some nearest ∧ outermost < nearest ∧
          after.copy? nearest name = some binding) := by
  have sound' := (use_spec sound path refers captured noted).1
  have path' := path.grows (use_fills captured noted).grows
  -- Either all functions around are around the origin, or the nearest one holds a copy and relays
  -- it.
  obtain ⟨frame, entry, means, inside⟩ | ⟨inner, holder, outer, split, first, held, _⟩ :=
    use_holder sound path refers captured noted
  · refine ⟨[], binding, frame, .origin entry, entry, ?_, ?_, .inl ⟨rfl, inside⟩⟩
    · obtain ⟨_, _, _, rfl, _, bound⟩ := meaning_binding means
      obtain ⟨_, rfl, _⟩ := (sound'.locals _ _ _ bound).unique entry
      simp
    · intro other member function further
      exact absurd further (Nat.not_lt.mpr (inside other member function))
  · obtain ⟨_, _, entry⟩ := sound'.captures _ _ _ held
    obtain ⟨holders, origin, outermost, trail, original, _, _⟩ :=
      Trail.exists_of_entry sound' entry
    rw [split] at path'
    obtain ⟨onPath, relays⟩ := closed _ _ path'.suffix _ _ held _ _ _ trail original
    have further := path'.suffix.lt_of_outer sound'.ordered onPath
    have nearest : (ids.filter after.isFunction).head? = some holder := by
      have function := (sound'.captures _ _ _ held).1
      rw [split, List.filter_append, List.filter_eq_nil_iff.mpr first, List.filter_cons,
        if_pos function]
      rfl
    refine ⟨holders, origin, outermost, trail, original, by simp [split, onPath], ?_,
      .inr ⟨holder, nearest, further, held⟩⟩
    intro other member function further
    rw [split] at member
    obtain inside | outside := List.mem_append.mp member
    · exact absurd function (first other inside)
    · obtain rfl | outside := List.mem_cons.mp outside
      · exact ⟨binding, holders, held, trail⟩
      · exact relays other outside function further

/-- The functions that a use leaves stand inside the frame of its origin. -/
theorem use_inside {name : Symbol} {source binding origin : BindingId} {boxed : Bool}
    {crossed holders : List FrameId} {between : FrameTree} {outermost other : FrameId}
    (sound : before.Sound) (path : before.Path id ids)
    (refers : before.Refers id name ⟨.binding source, crossed⟩)
    (captured : before.capture ⟨source, crossed⟩ = some (binding, between))
    (noted : between.noteUse binding boxed = some after)
    (trail : after.Trail binding holders origin) (original : after.Entry origin name outermost none)
    (left : other ∈ crossed) : outermost < other := by
  obtain ⟨sound', _, _, _, _, _, _, _, _, _, added, used⟩ :=
    use_spec sound path refers captured noted
  obtain ⟨rfl, _⟩ | ⟨nearest, rest, rfl, held⟩ := used
  · cases left
  · -- The copies in all these functions have the same source.
    obtain ⟨copy, appended, entry⟩ := added nearest (List.mem_cons_self ..)
    cases held.symm.trans (sound'.copy?_of_append appended)
    obtain ⟨_, _, entry'⟩ := added other left
    cases trail with
    | origin entry'' => cases (entry.unique entry'').2.2
    | copy entry'' trail =>
      cases (entry.unique entry'').2.2
      exact (Trail.copy entry' trail).outside sound' original other (List.mem_cons_self ..)

theorem keys_congr (same : after.captured id = before.captured id) :
    after.keys id = before.keys id := by
  rw [keys, keys, same]

theorem mem_keys_of_copy? {name : Symbol} {copy : BindingId}
    (held : tree.copy? id name = some copy) : name ∈ tree.keys id :=
  List.mem_map_of_mem (mem_captured_of_copy? held)

end FrameTree

/-! ### Gathering names -/

/-- A name that was seen before changes nothing, and one that was not comes last. -/
theorem eraseDups_append_singleton (seen : List Symbol) (name : Symbol) :
    (name ∈ seen → (seen ++ [name]).eraseDups = seen.eraseDups) ∧
      (name ∉ seen → (seen ++ [name]).eraseDups = seen.eraseDups ++ [name]) := by
  rw [List.eraseDups_append]
  constructor <;> intro member <;> simp [List.removeAll, member, List.eraseDups_cons]

/-- A function has gathered a reference: if the name is foreign, it holds a copy with the same
origin. -/
def Gathered (final tree : FrameTree) (holder : FrameId) (expr : Expr) : Prop :=
  ∀ name binding boxed, expr.node.localRef? = some (name, binding, boxed) →
    final.isForeign holder binding = true →
    ∃ copy, tree.copy? holder name = some copy ∧ final.origin? copy = final.origin? binding

theorem Gathered.grows {final before after : FrameTree} {holder : FrameId} {expr : Expr}
    (gathered : Gathered final before holder expr) (grows : before.Grows after)
    (sound : after.Sound) : Gathered final after holder expr := by
  intro name binding boxed reference foreign
  obtain ⟨copy, held, same⟩ := gathered name binding boxed reference foreign
  exact ⟨copy, grows.copy? sound held, same⟩

namespace Tracks

variable {taken : FrameId → FrameId → Prop} {scope : Scope} {frame holder : FrameId}
  {ids : List FrameId} {before after final : FrameTree} {seen : List Symbol}

/-- A use adds its name to the keys of a function exactly if the name is foreign and new. -/
theorem use_gathers {name : Symbol} {source binding : BindingId} {crossed : List FrameId}
    {boxed : Bool} {between : FrameTree} {expr : Expr} (tracks : Tracks taken scope frame ids before)
    (quiet : ∀ nearest target, ¬ taken nearest target)
    (local? : expr.node.localRef? = some (name, binding, boxed))
    (refers : before.Refers frame name ⟨.binding source, crossed⟩)
    (captured : before.capture ⟨source, crossed⟩ = some (binding, between))
    (noted : between.noteUse binding boxed = some after) (sound : final.Sound)
    (grows : after.Grows final) (member : holder ∈ ids)
    (function : before.isFunction holder = true) (known : before.keys holder = seen.eraseDups) :
    after.keys holder = (seen ++ (expr.foreign? final holder).toList).eraseDups ∧
      Gathered final after holder expr := by
  have fills := FrameTree.use_fills captured noted
  have tracks' := tracks.use refers captured noted
  obtain ⟨holders, origin, outermost, trail, original, onPath, copies, _⟩ :=
    FrameTree.use_origin tracks.sound tracks.path refers captured noted (tracks'.closed quiet)
  have foreign_iff := FrameTree.isForeign_iff sound (tracks'.path.grows grows)
    (trail.keeps grows.bindings) (original.keeps grows.bindings) onPath member
  obtain ⟨_, _, _, _, _, _, _, _, _, others, added, _⟩ :=
    FrameTree.use_spec tracks.sound tracks.path refers captured noted
  have function' := (fills.sameNames.isFunction holder).trans function
  refine ⟨?_, ?_⟩
  -- If the name is foreign, the function holds it afterwards: a new key if it is left, else an old
  -- one.
  · by_cases foreign : final.isForeign holder binding = true
    · obtain ⟨held, _, present, _⟩ := copies holder member function' (foreign_iff.mp foreign)
      have listed := FrameTree.mem_keys_of_copy? present
      have name_ : (expr.foreign? final holder).toList = [name] := by
        simp [Expr.foreign?, local?, foreign]
      have old_iff : name ∈ seen ↔ name ∈ before.keys holder := by
        rw [known, List.mem_eraseDups]
      obtain ⟨old, new⟩ := eraseDups_append_singleton seen name
      rw [name_]
      by_cases left : holder ∈ crossed
      · obtain ⟨copy, appended, _⟩ := added holder left
        have keys : after.keys holder = before.keys holder ++ [name] := by
          simp [FrameTree.keys, appended]
        have distinct : (before.keys holder ++ [name]).Nodup :=
          keys ▸ tracks'.sound.distinct holder
        rw [List.nodup_append] at distinct
        rw [new fun seen => distinct.2.2 name (old_iff.mp seen) name (List.mem_singleton_self _) rfl,
          keys, known]
      · have same := FrameTree.keys_congr (others holder left)
        rw [same] at listed
        rw [old (old_iff.mpr listed), same, known]
    -- If the name is not foreign, the function is not left on the way to it.
    · have none_ : (expr.foreign? final holder).toList = [] := by
        simp [Expr.foreign?, local?, foreign]
      rw [none_, List.append_nil, ← known]
      refine FrameTree.keys_congr (others holder fun left => foreign (foreign_iff.mpr ?_))
      exact FrameTree.use_inside tracks.sound tracks.path refers captured noted trail original left
  · intro name' binding' boxed' reference foreign
    cases local?.symm.trans reference
    obtain ⟨held, others, present, rest⟩ :=
      copies holder member function' (foreign_iff.mp foreign)
    refine ⟨held, present, ?_⟩
    rw [sound.origin?_iff.mpr ⟨others, rest.keeps grows.bindings⟩,
      sound.origin?_iff.mpr ⟨holders, trail.keeps grows.bindings⟩]

/-- A reference to the nearest function makes no copies. -/
theorem self_captured {name : Symbol} {target : FrameId} {crossed : List FrameId}
    (tracks : Tracks taken scope frame ids before)
    (refers : before.Refers frame name ⟨.self target, crossed⟩)
    (along : before.captureSelf frame ⟨target, crossed⟩ = some after)
    (here : ∀ nearest, scope.functions.head?.map Prod.fst = some nearest → nearest = target) :
    after = before := by
  obtain ⟨_, _, _, _, split, _, _, rfl, spec⟩ :=
    FrameTree.self_spec tracks.sound tracks.path refers along
  obtain ⟨_, same⟩ | ⟨nearest, _, crossed, _⟩ := spec
  · exact same
  · obtain ⟨_, first, apart⟩ := tracks.path.nearest tracks.sound split crossed
    rw [← List.head?_map, tracks.sees.functions] at here
    exact absurd (here nearest first) apart

/-- What a node adds to the keys of the functions around. -/
theorem effect_gathers {expr : Expr} (tracks : Tracks taken scope frame ids before)
    (quiet : ∀ nearest target, ¬ taken nearest target)
    (effect : Effect frame expr.node before after)
    (here : ∀ nearest target, expr.node.recursesTo? = some target →
      scope.functions.head?.map Prod.fst = some nearest → nearest = target)
    (sound : final.Sound) (grows : after.Grows final) (member : holder ∈ ids)
    (function : before.isFunction holder = true) (known : before.keys holder = seen.eraseDups) :
    after.keys holder = (seen ++ (expr.foreign? final holder).toList).eraseDups ∧
      Gathered final after holder expr := by
  -- A node that is no local reference adds nothing.
  have nothing (notLocal : expr.node.localRef? = none)
      (captured : after.captured holder = before.captured holder) :
      after.keys holder = (seen ++ (expr.foreign? final holder).toList).eraseDups ∧
        Gathered final after holder expr := by
    refine ⟨?_, fun name binding boxed reference => by simp [notLocal] at reference⟩
    simp [FrameTree.keys_congr captured, known, Expr.foreign?, notLocal]
  cases effect with
  | lifts notLocal _ lifts => exact nothing notLocal (lifts.captured holder)
  | uses local? _ refers captured noted =>
    exact tracks.use_gathers quiet local? refers captured noted sound grows member function known
  | recurs notLocal self refers along marked =>
    have same := tracks.self_captured refers along fun nearest => here nearest _ self
    obtain ⟨_, rfl⟩ | ⟨_, updated⟩ := marked
    · exact nothing notLocal (by rw [same])
    · have captured := (FrameTree.updateFunction_sameNames FnContext.markNamed_notes updated).2
      exact nothing notLocal (by rw [captured, same])

end Tracks

/-! ### Runs -/

theorem FrameTree.self_captured_of_off {frame id target : FrameId} {ids crossed : List FrameId}
    {name : Symbol} {before after : FrameTree} (sound : before.Sound)
    (path : before.Path frame ids) (refers : before.Refers frame name ⟨.self target, crossed⟩)
    (along : before.captureSelf frame ⟨target, crossed⟩ = some after) (off : id ∉ ids) :
    after.captured id = before.captured id := by
  obtain ⟨_, _, inner, _, split, _, _, rfl, spec⟩ := self_spec sound path refers along
  obtain ⟨_, rfl⟩ | ⟨nearest, _, crossed, others, _⟩ := spec
  · rfl
  · have among := (path.nearest sound split crossed).1
    exact others id fun same => off (by simp [split, same, among])

/-- A node adds copies to functions around it only. -/
theorem Effect.captured_of_off {frame id : FrameId} {ids : List FrameId} {node : Node Expr}
    {before after : FrameTree} (effect : Effect frame node before after) (sound : before.Sound)
    (path : before.Path frame ids) (off : id ∉ ids) : after.captured id = before.captured id := by
  cases effect with
  | lifts _ _ lifts => exact lifts.captured id
  | uses _ _ refers captured noted =>
    obtain ⟨_, _, inner, _, _, rfl, _, _, rfl, others, _⟩ :=
      FrameTree.use_spec sound path refers captured noted
    exact others id fun left => off (List.mem_append_left _ (List.mem_filter.mp left).1)
  | recurs _ _ refers along marked =>
    have between := FrameTree.self_captured_of_off sound path refers along off
    obtain ⟨_, rfl⟩ | ⟨_, updated⟩ := marked
    · exact between
    · exact ((FrameTree.updateFunction_sameNames FnContext.markNamed_notes updated).2 id).trans
        between

theorem Ends.captured {node : Node Expr} {before after : Store} (ends : Ends node before after)
    (id : FrameId) : after.tree.captured id = before.tree.captured id := by
  cases ends with
  | jump _ marked => exact (FrameTree.updateFunction_sameNames FnContext.markTail_notes marked).2 id
  | idle => rfl

/-- A run adds copies to functions around it and to its own ones only. -/
theorem Enacts.captured_of_off {config : Config} {frame id : FrameId} {ids : List FrameId}
    {steps : List Step} {before after : Store} (run : Enacts config frame steps before after)
    (sound : before.tree.Sound) (path : before.tree.Path frame ids)
    (old : id < before.tree.frames.size) (off : id ∉ ids) :
    after.tree.captured id = before.tree.captured id := by
  induction run generalizing ids with
  | done => rfl
  | bind binds _ ih =>
    obtain ⟨_, _, _, _, bound⟩ := binds.bound
    have grows := binds.grows.1
    have rest := ih (binds.sound sound) (path.grows grows) (Nat.lt_of_lt_of_le old grows.size) off
    exact rest.trans ((FrameTree.bind_views bound).2.1 id)
  | count counts _ ih =>
    have grows := counts.grows.1
    have rest := ih (counts.sound sound) (path.grows grows) (Nat.lt_of_lt_of_le old grows.size) off
    exact rest.trans ((FrameTree.counts_sameNames counts).2 id)
  | block opened _ within _ inside rest =>
    have grows := (FrameTree.enter_grows opened).1
    have sound' := sound.enter path opened
    have inner := path.opened opened
    -- An old frame off the path is off the longer path as well.
    have older := Nat.ne_of_lt ((FrameTree.enter_some opened).1 ▸ old)
    have old' := Nat.lt_of_lt_of_le old grows.size
    have first := inside sound' inner old' (by simp [older, off])
    have second := rest (within.sound inner sound') (path.grows (grows.trans within.grows))
      (Nat.lt_of_lt_of_le old' within.grows.size) off
    exact second.trans (first.trans ((FrameTree.enter_views opened).1 id older).2.1)
  | visit _ begins within ends _ follows rest =>
    have effect := begins.effect
    have begun := effect.grows.1
    have path' := path.grows begun
    have sound' := effect.sound path sound
    have followed := within.sound path' sound'
    have old' := Nat.lt_of_lt_of_le old begun.size
    have first := follows sound' path' old' off
    have second := rest (ends.sound followed) ((path'.grows within.grows).grows ends.grows.1)
      (Nat.lt_of_lt_of_le old' (within.grows.trans ends.grows.1).size) off
    exact second.trans ((ends.captured id).trans
      (first.trans (effect.captured_of_off sound path off)))

section Run

variable {config : Config} {final : FrameTree} {root : Expr} {scope : Scope} {frame : FrameId}
  {steps : List Step} {before after : Store}

/-- A run adds to the keys of a function around it the names that are foreign to the function, each
where it first occurs. -/
theorem Tracked.gathers (tracked : Tracked config final root scope frame steps before after)
    (quiet : ∀ nearest target, ¬ root.Crosses final nearest target) (sound : final.Sound)
    {ids : List FrameId} (path : before.tree.Path frame ids) {holder : FrameId}
    (member : holder ∈ ids) (function : before.tree.isFunction holder = true) {seen : List Symbol}
    (known : before.tree.keys holder = seen.eraseDups) :
    after.tree.keys holder =
        (seen ++ (reached steps).filterMap (Expr.foreign? final holder)).eraseDups ∧
      ∀ expr ∈ reached steps, Gathered final after.tree holder expr := by
  induction tracked generalizing ids seen with
  | done => simp [known]
  | bind _ binds rest ih =>
    obtain ⟨_, _, _, _, bound⟩ := binds.bound
    obtain ⟨_, captured, _, functions⟩ := FrameTree.bind_views bound
    rw [reached_bind]
    exact ih (path.grows binds.grows.1) member ((functions holder).trans function)
      ((FrameTree.keys_congr (captured holder)).trans known)
  | count _ counts rest ih =>
    have ⟨names, captured⟩ := FrameTree.counts_sameNames counts
    rw [reached_count]
    exact ih (path.grows counts.grows.1) member ((names.isFunction holder).trans function)
      ((FrameTree.keys_congr (captured holder)).trans known)
  | block holds opened _ inside rest within further =>
    obtain ⟨others, tracks⟩ := holds
    cases path.unique tracks.path
    obtain ⟨views, _⟩ := FrameTree.enter_views opened
    have opens := (FrameTree.enter_grows opened).1
    have older := views holder (Nat.ne_of_lt (path.lt_opened opened member))
    have path' := path.grows opens
    -- First the block, whose frame is no function around, then what follows.
    obtain ⟨keys, gathered⟩ := within (path.opened opened) (List.mem_cons_of_mem _ member)
      (older.2.2.2.trans function) ((FrameTree.keys_congr older.2.1).trans known)
    have ran := inside.enacts.grows
    obtain ⟨_, held⟩ := path'.mem_frame member
    have function' := (ran.isFunction held).trans (older.2.2.2.trans function)
    obtain ⟨keys', gathered'⟩ := further (path'.grows ran) member function' keys
    obtain ⟨_, between⟩ := rest.start
    have sound' := rest.enacts.sound between.path between.sound
    rw [reached_block, List.filterMap_append, ← List.append_assoc]
    refine ⟨keys', fun expr among => ?_⟩
    obtain among | among := List.mem_append.mp among
    · exact (gathered expr among).grows rest.enacts.grows sound'
    · exact gathered' expr among
  | visit holds allowed fits begins inside ends rest within further =>
    obtain ⟨others, tracks⟩ := holds
    cases path.unique tracks.path
    have begun := begins.effect.grows.1
    have ran := inside.enacts.grows
    have ended := ends.grows.1
    have last := rest.enacts.grows
    -- No reference crosses a boundary, so one to an enclosing function makes no copies.
    have here (nearest target : FrameId) (self : _ = some target) (first : _ = some nearest) :
        nearest = target :=
      Classical.byContradiction fun apart =>
        quiet _ _ ⟨_, _, Expr.mem_scoped.mpr allowed, self, first, apart⟩
    -- The node, then its script, then what follows, each adding behind the earlier names.
    obtain ⟨keys, gathered⟩ := tracks.effect_gathers quiet begins.effect here sound
      (ran.trans (ended.trans (last.trans rest.grows))) member function known
    obtain ⟨_, held⟩ := path.mem_frame member
    have function' := (begun.isFunction held).trans function
    obtain ⟨keys', gathered'⟩ := within (path.grows begun) member function' keys
    obtain ⟨keys'', gathered''⟩ := further (path.grows (begun.trans (ran.trans ended))) member
      (((begun.trans (ran.trans ended)).isFunction held).trans function)
      ((FrameTree.keys_congr (ends.captured _)).trans keys')
    obtain ⟨_, between⟩ := rest.start
    have sound' := rest.enacts.sound between.path between.sound
    rw [reached_visit]
    refine ⟨?_, fun expr among => ?_⟩
    · rw [keys'', List.filterMap_cons, List.filterMap_append]
      cases Expr.foreign? final holder _ <;> simp
    · obtain rfl | among := List.mem_cons.mp among
      · exact gathered.grows (ran.trans (ended.trans last)) sound'
      · obtain among | among := List.mem_append.mp among
        · exact (gathered' expr among).grows (ended.trans last) sound'
        · exact gathered'' expr among

/-- An arity whose frame was opened since the start holds copies of its foreign names, with the
origins of its references. -/
structure Collects (final start tree : FrameTree) (arity : Arity Expr) : Prop where
  new : start.frames.size ≤ arity.frame
  function : tree.isFunction arity.frame = true
  keys : tree.keys arity.frame = (arity.body.foreign final arity.frame).eraseDups
  gathered : ∀ expr ∈ arity.body.walk, Gathered final tree arity.frame expr

namespace Collects

variable {start tree : FrameTree} {arity : Arity Expr}

theorem earlier (collects : Collects final start tree arity) {first : FrameTree}
    (grows : first.Grows start) : Collects final first tree arity :=
  { collects with new := Nat.le_trans grows.size collects.new }

theorem congr (collects : Collects final start tree arity) {last : FrameTree}
    (grows : tree.Grows last) (sound : last.Sound)
    (captured : last.captured arity.frame = tree.captured arity.frame) :
    Collects final start last arity := by
  obtain ⟨_, held⟩ := FrameTree.frame_of_isFunction collects.function
  exact ⟨collects.new, (grows.isFunction held).trans collects.function,
    (FrameTree.keys_congr captured).trans collects.keys,
    fun expr member => (collects.gathered expr member).grows grows sound⟩

/-- What follows in a frame adds nothing to an arity that was opened inside of it. -/
theorem later {ids : List FrameId} (collects : Collects final start before.tree arity)
    (path : start.Path frame ids) (grows : start.Grows before.tree)
    (rest : Tracked config final root scope frame steps before after) :
    Collects final start after.tree arity := by
  obtain ⟨_, tracks⟩ := rest.start
  -- The frame of the arity was opened since, and those on the path are older.
  have off : arity.frame ∉ ids := by
    intro member
    obtain ⟨_, held⟩ := path.mem_frame member
    exact Nat.lt_irrefl _ (Nat.lt_of_lt_of_le (FrameTree.frame?_lt held) collects.new)
  obtain ⟨_, held⟩ := FrameTree.frame_of_isFunction collects.function
  exact collects.congr rest.enacts.grows (rest.enacts.sound tracks.path tracks.sound)
    (rest.enacts.captured_of_off tracks.sound (path.grows grows) (FrameTree.frame?_lt held) off)

end Collects

/-- The body of an arity collects what is foreign to it. -/
theorem Tracked.body_collects {context : FnContext} {arity : Arity Expr} {tree : FrameTree}
    {between : Store} {ids : List FrameId}
    (opened : before.tree.enter (.function context) frame = (arity.frame, tree))
    (path : before.tree.Path frame ids)
    (inside : Tracked config final root scope arity.frame
      (arity.params.map (.bind · .bare) ++ [.visit .functionBody arity.body])
      { before with tree } between)
    (quiet : ∀ nearest target, ¬ root.Crosses final nearest target) (sound : final.Sound) :
    Collects final before.tree between.tree arity := by
  obtain ⟨next, _, _, new, _⟩ := FrameTree.enter_some opened
  obtain ⟨_, _, empty⟩ := FrameTree.enter_views opened
  have function : tree.isFunction arity.frame = true := by
    simp [FrameTree.isFunction, new, Frame.isFunction, Opening.kind]
  have none_ : tree.keys arity.frame = [].eraseDups := by
    simp [FrameTree.keys, empty]
  obtain ⟨keys, gathered⟩ :=
    inside.gathers quiet sound (path.opened opened) (List.mem_cons_self ..) function none_
  have body : reached (arity.params.map (Step.bind · .bare) ++
      [.visit .functionBody arity.body]) = arity.body.walk := by
    simp [reached, visited]
  rw [body] at keys gathered
  exact ⟨Nat.le_of_eq next.symm, (inside.enacts.grows.isFunction new).trans function, keys,
    gathered⟩

/-- The block of an arity collects what is foreign to it, and nothing is added afterwards. -/
theorem Tracked.block_collects
    (tracked : Tracked config final root scope frame steps before after)
    (quiet : ∀ nearest target, ¬ root.Crosses final nearest target) (sound : final.Sound)
    {arity : Arity Expr} {name : Option Symbol} {uniqueName : String}
    (member : arity.block name uniqueName ∈ steps) :
    Collects final before.tree after.tree arity := by
  induction tracked with
  | done => cases member
  | bind _ binds _ ih =>
    obtain same | member := List.mem_cons.mp member
    · cases same
    · exact (ih member).earlier binds.grows.1
  | count _ counts _ ih =>
    obtain same | member := List.mem_cons.mp member
    · cases same
    · exact (ih member).earlier counts.grows.1
  | block holds opened recorded inside rest _ ih =>
    obtain ⟨ids, tracks⟩ := holds
    have ran := (FrameTree.enter_grows opened).1.trans inside.enacts.grows
    obtain same | member := List.mem_cons.mp member
    -- The frame that was opened is the recorded one.
    · cases same
      obtain ⟨same, _⟩ := recorded
      cases same
      have collects := Tracked.body_collects opened tracks.path inside quiet sound
      exact collects.later tracks.path ran rest
    · exact (ih member).earlier ran
  | visit _ _ _ begins inside ends _ _ ih =>
    obtain same | member := List.mem_cons.mp member
    · cases same
    · have grows := begins.effect.grows.1.trans (inside.enacts.grows.trans ends.grows.1)
      exact (ih member).earlier grows

/-- Every arity that a run reaches has collected what is foreign to it. -/
theorem Tracked.collects (tracked : Tracked config final root scope frame steps before after)
    (quiet : ∀ nearest target, ¬ root.Crosses final nearest target) (sound : final.Sound)
    {expr : Expr} (member : expr ∈ reached steps) {arity : Arity Expr}
    (among : arity ∈ expr.node.arities) : Collects final before.tree after.tree arity := by
  induction tracked with
  | done => simp at member
  | bind _ binds _ ih =>
    rw [reached_bind] at member
    exact (ih member).earlier binds.grows.1
  | count _ counts _ ih =>
    rw [reached_count] at member
    exact (ih member).earlier counts.grows.1
  | block holds opened _ inside rest within further =>
    obtain ⟨ids, tracks⟩ := holds
    have opens := (FrameTree.enter_grows opened).1
    have ran := opens.trans inside.enacts.grows
    rw [reached_block, List.mem_append] at member
    obtain member | member := member
    · exact ((within member).earlier opens).later tracks.path ran rest
    · exact (further member).earlier ran
  | visit holds _ _ begins inside ends rest within further =>
    obtain ⟨ids, tracks⟩ := holds
    have begun := begins.effect.grows.1
    have ran := inside.enacts.grows
    have ended := ends.grows.1
    obtain ⟨_, following⟩ := rest.start
    -- What was collected inside of the node stays.
    have stays := fun (collects : Collects final _ _ arity) =>
      ((collects.congr ended following.sound (ends.captured _)).later (tracks.path.grows begun)
        (ran.trans ended) rest).earlier begun
    rw [reached_visit, List.mem_cons, List.mem_append] at member
    obtain rfl | member | member := member
    -- Only a function has arities, and its script consists of their blocks.
    · refine stays ?_
      cases node : expr.node with
      | function name uniqueName arities =>
        rw [node] at among inside
        exact Tracked.block_collects inside quiet sound (List.mem_map_of_mem among)
      | _ => simp [node, Node.arities] at among
    · exact stays (within member)
    · exact (further member).earlier (begun.trans (ran.trans ended))

end Run

/-! ### Frames of functions -/

/-- The frames that a script opens itself, with what is known of them. -/
def openings : List Step → List (Opening × Option FrameId)
  | [] => []
  | .block opening known script :: steps => (opening, known) :: (openings script ++ openings steps)
  | .bind _ _ :: steps | .count _ _ :: steps | .visit _ _ :: steps => openings steps

@[simp] theorem openings_append (first second : List Step) :
    openings (first ++ second) = openings first ++ openings second := by
  induction first with
  | nil => simp [openings]
  | cons step first ih => cases step <;> simp [openings, ih]

/-- A script without blocks opens no frames. -/
theorem openings_of_flat {steps : List Step}
    (flat : ∀ opening known script, .block opening known script ∉ steps) : openings steps = [] := by
  induction steps with
  | nil => simp [openings]
  | cons step steps ih =>
    have rest := ih fun opening known script member => flat opening known script (.tail _ member)
    cases step with
    | block opening known script => exact absurd (List.mem_cons_self ..) (flat opening known script)
    | bind | count | visit => simp [openings, rest]

/-- Frames of functions are opened by arities. -/
theorem Node.mem_arities_of_openings {place : Place} {node : Node Expr} {context : FnContext}
    {known : Option FrameId} (member : (.function context, known) ∈ openings (node.script place)) :
    ∃ arity ∈ node.arities, known = some arity.frame := by
  have none_ (items : List Expr) : openings (sequenceScript place items) = [] := by
    induction items using sequenceScript.induct with
    | case1 => simp [sequenceScript, openings]
    | case2 last => simp [sequenceScript, openings]
    | case3 first rest more ih =>
      obtain ⟨second, rest, rfl⟩ := List.exists_cons_of_ne_nil more
      simp [sequenceScript, openings, ih]
  have pairs (isLoop : Bool) (bound : List (BindingId × Expr)) :
      openings (pairScript isLoop bound) = [] := by
    apply openings_of_flat
    simp [pairScript]
  have counts (isLoop : Bool) (frame : FrameId) (arity : Nat) :
      openings (countScript isLoop frame arity) = [] := by
    cases isLoop <;> simp [countScript, openings]
  have binds {γ : Type} (items : List γ) (pick : γ → BindingId) :
      openings (items.map fun item => .bind (pick item) .bare) = [] := by
    apply openings_of_flat
    simp
  have visits {γ : Type} (place : Place) (items : List γ) (pick : γ → Expr) :
      openings (items.map fun item => .visit place (pick item)) = [] := by
    apply openings_of_flat
    simp
  cases node with
  | function name uniqueName arities =>
    simp only [script] at member
    induction arities with
    | nil => simp [openings] at member
    | cons arity arities ih =>
      simp only [List.map_cons, Arity.block, openings, openings_append, binds, List.append_nil,
        List.nil_append, List.mem_cons, Prod.mk.injEq] at member
      obtain ⟨_, rfl⟩ | member := member
      · exact ⟨arity, List.mem_cons_self .., rfl⟩
      · obtain ⟨arity, among, same⟩ := ih member
        exact ⟨arity, List.mem_cons_of_mem _ among, same⟩
  | sequence items => simp [script, none_] at member
  | lets isLoop bound body frame =>
    cases isLoop <;> simp [script, openings, pairs, counts] at member
  | letfns bound body frame => simp [script, openings, binds, visits] at member
  | guarded body frame handler cleanup =>
    cases handler <;> cases cleanup <;> simp [script, Handler.block, openings] at member
  | recur args target =>
    cases target <;> simp [script, visits _ args fun item => item] at member
  | call | branch | dispatch => simp [script, openings, visits] at member
  | _ => simp [script, visits _ _ fun item => item] at member

/-- Every function that a run adds is opened by its script or belongs to an arity it reaches. -/
theorem Enacts.function_opened {config : Config} {frame id : FrameId} {steps : List Step}
    {before after : Store} (run : Enacts config frame steps before after)
    (new : before.tree.frames.size ≤ id) (function : after.tree.isFunction id = true) :
    (∃ context, (.function context, some id) ∈ openings steps) ∨
      ∃ expr ∈ reached steps, ∃ arity ∈ expr.node.arities, arity.frame = id := by
  induction run with
  | done =>
    obtain ⟨_, held⟩ := FrameTree.frame_of_isFunction function
    exact absurd (FrameTree.frame?_lt held) (Nat.not_lt.mpr new)
  | bind binds _ ih =>
    obtain ⟨_, _, _, _, bound⟩ := binds.bound
    have size := (FrameTree.bind_some bound).2.2.1
    rw [reached_bind, openings]
    exact ih (Nat.le_trans (Nat.le_of_eq size) new) function
  | count counts _ ih =>
    obtain ⟨_, _, _, _, _, size, _⟩ := counts.counted
    rw [reached_count, openings]
    exact ih (Nat.le_trans (Nat.le_of_eq size) new) function
  | @block opening _ _ _ _ _ inner _ between _ opened recorded within follows inside rest =>
    obtain ⟨next, _, size, held, _⟩ := FrameTree.enter_some opened
    rw [reached_block, openings]
    simp only [List.mem_cons, List.mem_append]
    -- The frame was opened by the block or inside of it, or else by what follows.
    by_cases old : id < between.tree.frames.size
    · obtain ⟨_, held'⟩ : ∃ held, between.tree.frame? id = some held :=
        ⟨_, Array.getElem?_eq_getElem old⟩
      rw [follows.grows.isFunction held'] at function
      by_cases same : id = inner
      · subst same
        rw [within.grows.isFunction held] at function
        cases opening with
        | function context =>
          obtain ⟨rfl, _⟩ := recorded
          exact .inl ⟨context, .inl rfl⟩
        | _ => simp [FrameTree.isFunction, held, Frame.isFunction, Opening.kind] at function
      · have later := Nat.lt_of_le_of_ne new fun first => same (first.symm.trans next.symm)
        obtain ⟨context, among⟩ | ⟨expr, among, found⟩ :=
          inside (Nat.le_trans (Nat.le_of_eq size) later) function
        · exact .inl ⟨context, .inr (.inl among)⟩
        · exact .inr ⟨expr, .inl among, found⟩
    · obtain ⟨context, among⟩ | ⟨expr, among, found⟩ := rest (Nat.not_lt.mp old) function
      · exact .inl ⟨context, .inr (.inr among)⟩
      · exact .inr ⟨expr, .inr among, found⟩
  | @visit _ _ _ expr _ _ followed _ _ _ begins within ends remains follows rest =>
    have begun := begins.effect.frames_size
    rw [reached_visit, openings]
    simp only [List.mem_cons, List.mem_append]
    -- A node opens frames by its script only.
    by_cases old : id < followed.tree.frames.size
    · obtain ⟨_, held⟩ : ∃ held, followed.tree.frame? id = some held :=
        ⟨_, Array.getElem?_eq_getElem old⟩
      rw [(ends.grows.1.trans remains.grows).isFunction held] at function
      obtain ⟨context, among⟩ | ⟨other, among, found⟩ := follows (begun ▸ new) function
      · obtain ⟨arity, among, same⟩ := Node.mem_arities_of_openings among
        exact .inr ⟨expr, .inl rfl, arity, among, (Option.some.inj same).symm⟩
      · exact .inr ⟨other, .inr (.inl among), found⟩
    · obtain among | ⟨other, among, found⟩ := rest (ends.frames_size ▸ Nat.not_lt.mp old) function
      · exact .inl among
      · exact .inr ⟨other, .inr (.inr among), found⟩

/-! ### All closures of a result -/

namespace FrameTree

variable {tree : FrameTree}

/-- Only functions hold copies. -/
theorem Sound.captured_eq_nil (sound : tree.Sound) {id : FrameId}
    (plain : tree.isFunction id = false) : tree.captured id = [] := by
  rw [List.eq_nil_iff_forall_not_mem]
  rintro ⟨name, copy⟩ member
  have function := (sound.captures id name copy (sound.copy?_of_mem member)).1
  rw [plain] at function
  cases function

/-- A relayed copy is held by the function around as well, unless its origin belongs to that. -/
theorem Closed.enclosing (closed : tree.Closed) (sound : tree.Sound) {id outer outermost : FrameId}
    {name : Symbol} {copy origin : BindingId} {holders : List FrameId}
    (held : tree.copy? id name = some copy) (trail : tree.Trail copy holders origin)
    (original : tree.Entry origin name outermost none)
    (enclosing : (tree.lineage id).bind Lineage.enclosingFunction = some outer)
    (elsewhere : tree.closestFunction outermost ≠ some outer) :
    ∃ kept others, tree.copy? outer name = some kept ∧ tree.Trail kept others origin := by
  obtain ⟨frame, found⟩ := frame_of_isFunction (sound.captures _ _ _ held).1
  obtain ⟨ids, path⟩ := Path.exists_of_frame sound.ordered found
  obtain ⟨rest, rfl⟩ := path.head
  obtain ⟨onPath, relays⟩ := closed _ _ path _ _ held _ _ _ trail original
  obtain ⟨inner, further, rfl, function, others⟩ := enclosingFunction_split path enclosing
  refine relays outer (by simp) function ?_
  have decreasing := (List.pairwise_cons.mp (path.decreasing sound.ordered)).2
  rw [List.pairwise_append, List.pairwise_cons] at decreasing
  -- Between the two functions there is none, so what is bound there belongs to the outer one.
  have belongs {between : List FrameId} (none_ : ∀ other ∈ between, ¬ tree.isFunction other = true)
      (path : tree.Path outermost (between ++ outer :: further)) : False := by
    have first : (between ++ outer :: further).filter tree.isFunction =
        outer :: further.filter tree.isFunction := by
      rw [List.filter_append, List.filter_eq_nil_iff.mpr none_, List.filter_cons, if_pos function]
      rfl
    exact elsewhere (closestFunction_of_first sound.ordered path first)
  -- The origin is inside the outer function, in its own frame, or further out; only the last is
  -- left.
  obtain inside | outside := List.mem_append.mp onPath
  · obtain ⟨before, after, rfl⟩ := List.append_of_mem inside
    have split : tree.Path id ((id :: before) ++ outermost :: (after ++ outer :: further)) := by
      simpa using path
    have none_ : ∀ other ∈ outermost :: after, ¬ tree.isFunction other = true :=
      fun other member => others other (List.mem_append_right _ member)
    exact (belongs none_ split.suffix).elim
  · obtain rfl | outside := List.mem_cons.mp outside
    · have split : tree.Path id ((id :: inner) ++ outermost :: further) := path
      exact (belongs (List.forall_mem_nil _) split.suffix).elim
    · exact decreasing.2.1.1 outermost outside

end FrameTree

/-- An arity captures exactly what is foreign to it. -/
structure Arity.CapturesExactly (tree : FrameTree) (arity : Arity Expr) : Prop where
  function : tree.isFunction arity.frame = true
  /-- It holds copies of its foreign names, in the order in which they first occur. -/
  keys : tree.keys arity.frame = (arity.body.foreign tree arity.frame).eraseDups
  /-- Each copy is its own and goes back to the binding that all foreign references of the name go
  back to. The function around it holds such a copy too, unless the binding belongs to that. -/
  copies : ∀ name copy, tree.copy? arity.frame name = some copy →
    ∃ held origin original, tree.binding? copy = some held ∧ held.frame = arity.frame ∧
      held.isCapture = true ∧ tree.origin? copy = some origin ∧
      tree.binding? origin = some original ∧
      (∀ found ∈ arity.body.walk, ∀ binding boxed, found.node = .localRef name binding boxed →
        tree.isForeign arity.frame binding = true → tree.origin? binding = some origin) ∧
      ∀ outer, (tree.lineage arity.frame).bind Lineage.enclosingFunction = some outer →
        tree.closestFunction original.frame ≠ some outer →
        ∃ kept, tree.copy? outer name = some kept ∧ tree.origin? kept = some origin

/-- What an arity has collected is exact once all copies are relayed. -/
theorem Collects.exact {start tree : FrameTree} {arity : Arity Expr}
    (collects : Collects tree start tree arity) (closed : tree.Closed) (sound : tree.Sound) :
    arity.CapturesExactly tree := by
  refine ⟨collects.function, collects.keys, fun name copy held => ?_⟩
  obtain ⟨_, source, entry⟩ := sound.captures _ _ _ held
  obtain ⟨holders, origin, outermost, trail, original, _, _⟩ :=
    FrameTree.Trail.exists_of_entry sound entry
  have followed := sound.origin?_iff.mpr ⟨holders, trail⟩
  have enclosing (outer : FrameId) (around : _ = some outer) :=
    closed.enclosing sound held trail original around
  obtain ⟨binding, found, _, framed, copied⟩ := entry
  obtain ⟨bound, found', _, rfl, _⟩ := original
  refine ⟨binding, origin, bound, found, framed, by simp [Binding.isCapture, copied], followed,
    found', ?_, ?_⟩
  · intro expr member other boxed reference foreign
    obtain ⟨kept, held', same⟩ :=
      collects.gathered expr member name other boxed (by simp [reference, Node.localRef?]) foreign
    cases held.symm.trans held'
    exact same.symm.trans followed
  · intro outer around elsewhere
    obtain ⟨kept, others, held, rest⟩ := enclosing outer around elsewhere
    exact ⟨kept, held, sound.origin?_iff.mpr ⟨others, rest⟩⟩

/-- Where a reference to a local name leads if no reference crosses a boundary: to its origin if all
functions around the reference are also around the origin, and otherwise to the copy that the
nearest function holds. -/
theorem Tracks.binding_used {taken : FrameId → FrameId → Prop} {scope : Scope} {frame : FrameId}
    {ids crossed : List FrameId} {before between after final : FrameTree} {name : Symbol}
    {source binding : BindingId} {boxed : Bool} (tracks : Tracks taken scope frame ids before)
    (quiet : ∀ nearest target, ¬ taken nearest target)
    (refers : before.Refers frame name ⟨.binding source, crossed⟩)
    (captured : before.capture ⟨source, crossed⟩ = some (binding, between))
    (noted : between.noteUse binding boxed = some after) (sound : final.Sound)
    (grows : after.Grows final) :
    ∃ origin original, final.origin? binding = some origin ∧
      final.binding? origin = some original ∧
      ((∀ function ∈ scope.functions, final.encloses function.1 original.frame = true) →
        binding = origin) ∧
      ((∃ function ∈ scope.functions, final.encloses function.1 original.frame = false) →
        ∃ nearest ∈ scope.functions.head?, final.copy? nearest.1 name = some binding) := by
  have tracks' := tracks.use refers captured noted
  obtain ⟨holders, origin, outermost, trail, original, onPath, _, used⟩ :=
    FrameTree.use_origin tracks.sound tracks.path refers captured noted (tracks'.closed quiet)
  have path := tracks'.path.grows grows
  have around (function : FrameId × Env) (member : function ∈ scope.functions) :
      function.1 ∈ ids ∧ after.isFunction function.1 = true ∧
        (final.encloses function.1 outermost = true ↔ function.1 ≤ outermost) := by
    have listed : function.1 ∈ ids.filter after.isFunction :=
      tracks'.sees.functions ▸ List.mem_map_of_mem member
    obtain ⟨among, function⟩ := List.mem_filter.mp listed
    exact ⟨among, function, path.encloses_iff sound.ordered onPath among⟩
  have followed := sound.origin?_iff.mpr ⟨holders, trail.keeps grows.bindings⟩
  obtain ⟨held, found, _, rfl, _⟩ := original.keeps grows.bindings
  refine ⟨origin, held, followed, found, ?_⟩
  obtain ⟨same, inside⟩ | ⟨nearest, first, further, copied⟩ := used
  -- All functions around are around the origin, so none of them can be outside.
  · refine ⟨fun _ => same, ?_⟩
    rintro ⟨function, member, outside⟩
    obtain ⟨among, isFunction, encloses⟩ := around function member
    rw [encloses.mpr (inside _ among isFunction)] at outside
    cases outside
  · rw [← tracks'.sees.functions, List.head?_map, Option.map_eq_some_iff] at first
    obtain ⟨function, first, rfl⟩ := first
    refine ⟨fun inside => ?_, fun _ => ⟨function, first, grows.copy? sound copied⟩⟩
    have member := List.mem_of_head? first
    obtain ⟨_, _, encloses⟩ := around function member
    exact absurd further (Nat.not_lt.mpr (encloses.mp (inside function member)))

/-- Closure conversion is exact and closed, provided that every reference to an enclosing function
leads to the nearest function of the place where it stands. Every frame of a function belongs to an
arity, and every arity captures exactly what is foreign to it. A reference to a local name leads to
its origin if all functions around the reference are around the origin as well, and otherwise to the
copy that the nearest function holds. Other frames hold no copies. -/
theorem Session.analyze_closures {σ : Type} {analyzer : Analyzer σ} {depth : Nat} {form : Form}
    {session : Session σ} {analysis : Analysis}
    (analyzed : ((Session.analyze analyzer depth form).run session).1 = .ok analysis)
    (nearest : ∀ scope found, (scope, found) ∈ analysis.expr.scoped analysis.tree →
      ∀ target, found.node.recursesTo? = some target →
        scope.functions.head?.map Prod.fst = some target) :
    (∀ id frame, analysis.tree.frame? id = some frame → frame.isFunction = true →
      ∃ arity ∈ analysis.expr.arities, arity.frame = id) ∧
    (∀ arity ∈ analysis.expr.arities, arity.CapturesExactly analysis.tree) ∧
    (∀ scope found, (scope, found) ∈ analysis.expr.scoped analysis.tree →
      ∀ name binding boxed, found.node = .localRef name binding boxed →
        ∃ origin original, analysis.tree.origin? binding = some origin ∧
          analysis.tree.binding? origin = some original ∧
          ((∀ function ∈ scope.functions,
            analysis.tree.encloses function.1 original.frame = true) → binding = origin) ∧
          ((∃ function ∈ scope.functions,
            analysis.tree.encloses function.1 original.frame = false) →
            ∃ function ∈ scope.functions.head?,
              analysis.tree.copy? function.1 name = some binding)) ∧
    ∀ id frame, analysis.tree.frame? id = some frame → frame.isFunction = false →
      frame.captures.entries = [] := by
  have quiet (inner outer : FrameId) : ¬ analysis.expr.Crosses analysis.tree inner outer := by
    rintro ⟨scope, found, member, self, first, apart⟩
    cases (nearest scope found member outer self).symm.trans first
    exact apart rfl
  have sound := Session.analyze_sound analyzed
  obtain ⟨names, tracked, ids, tracks⟩ := Session.analyze_tracked analyzed
  have walked : reached [.visit .operand analysis.expr] = analysis.expr.walk := by
    simp [reached, visited]
  refine ⟨?_, ?_, ?_, ?_⟩
  · intro id frame held function
    have function' : analysis.tree.isFunction id = true := by
      simp [FrameTree.isFunction, held, function]
    have new : FrameTree.initial.frames.size ≤ id := by
      -- The root is no function.
      cases id with
      | zero =>
        rw [tracked.enacts.grows.isFunction rfl] at function'
        cases function'
      | succ id => exact Nat.le_add_left 1 id
    obtain ⟨context, opened⟩ | ⟨expr, member, arity, among, same⟩ :=
      tracked.enacts.function_opened new function'
    · simp [openings] at opened
    · rw [walked] at member
      exact ⟨arity, List.mem_flatMap.mpr ⟨expr, member, among⟩, same⟩
  · intro arity member
    obtain ⟨expr, member, among⟩ := List.mem_flatMap.mp member
    rw [← walked] at member
    exact (tracked.collects quiet sound member among).exact (tracks.closed quiet) sound
  · intro scope found member name binding boxed reference
    obtain ⟨frame, ids, before, after, tracks, begins, grows⟩ :=
      Session.analyze_tracks analyzed member
    rw [reference] at begins
    cases begins with
    | localRef refers captured noted =>
      exact tracks.binding_used quiet refers captured noted sound grows
    | var looked => cases looked
    | idle idle => cases idle
  · intro id frame held plain
    have plain' : analysis.tree.isFunction id = false := by
      simp [FrameTree.isFunction, held, plain]
    simpa [FrameTree.captured, held] using sound.captured_eq_nil plain'

/-- `(let* [x nil] (fn* f [] f x))`. -/
def keeper : Form :=
  let symbol (name : String) : Form := .symbol (.simple name) .synthetic
  let list (items : List Form) : Form := .list items .synthetic
  let vector (items : List Form) : Form := .vector items .synthetic
  list [symbol "let*", vector [symbol "x", .atom .nil .synthetic],
    list [symbol "fn*", symbol "f", vector [], symbol "f", symbol "x"]]

/-- In `keeper` the function refers to itself, and `x` is all that it captures. -/
theorem keeper_closures : ∃ analysis,
    ((Session.analyze ⟨Namespaces.host, .standard⟩ 5 keeper).run (.start (.inside "user"))).1 =
      .ok analysis ∧
    (∃ scope found, (scope, found) ∈ analysis.expr.scoped analysis.tree ∧
      found.node.recursesTo? = some 2) ∧
    ∃ arity ∈ analysis.expr.arities, arity.frame = 2 ∧ arity.CapturesExactly analysis.tree ∧
      (arity.body.foreign analysis.tree 2).eraseDups = [.simple "x"] := by
  have computed : (((Session.analyze ⟨Namespaces.host, .standard⟩ 5 keeper).run
      (.start (.inside "user"))).1.toOption.bind fun analysis =>
        (analysis.tree.frame? 2).map fun frame =>
          (frame.isFunction, analysis.tree.keys 2,
            (analysis.expr.scoped analysis.tree).filterMap fun step =>
              step.2.node.recursesTo?.map fun target =>
                (step.1.functions.head?.map Prod.fst, target))) =
      some (true, [.simple "x"], [(some 2, 2)]) := by
    cbv
  simp only [Option.bind_eq_some_iff, Option.map_eq_some_iff, Prod.mk.injEq] at computed
  obtain ⟨analysis, result, frame, held, function, keys, references⟩ := computed
  have analyzed := ok_of_toOption result
  have nearest (scope : Scope) (found : Expr)
      (member : (scope, found) ∈ analysis.expr.scoped analysis.tree) (target : FrameId)
      (self : found.node.recursesTo? = some target) :
      scope.functions.head?.map Prod.fst = some target := by
    have listed : (scope.functions.head?.map Prod.fst, target) ∈ [(some 2, 2)] := by
      rw [← references, List.mem_filterMap]
      exact ⟨(scope, found), member, by simp [self]⟩
    rw [List.mem_singleton, Prod.mk.injEq] at listed
    rw [listed.1, listed.2]
  obtain ⟨owned, exact_, _⟩ := Session.analyze_closures analyzed nearest
  obtain ⟨arity, member, same⟩ := owned 2 frame held function
  have captures := exact_ arity member
  refine ⟨analysis, analyzed, ?_, arity, member, same, captures, ?_⟩
  · have some_ : (some 2, 2) ∈ [((some 2 : Option FrameId), (2 : FrameId))] := by simp
    rw [← references, List.mem_filterMap] at some_
    obtain ⟨⟨scope, found⟩, among, self⟩ := some_
    obtain ⟨target, self, same⟩ := Option.map_eq_some_iff.mp self
    exact ⟨scope, found, among, (Prod.mk.inj same).2 ▸ self⟩
  · rw [← keys, ← same, captures.keys]

end LispScope
