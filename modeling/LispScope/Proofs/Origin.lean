import LispScope.Proofs.Enactment
import LispScope.Proofs.Scope
import Mathlib.Data.List.Chain

/-!
# Origins of copies

From a copy the sources lead, function by function, outwards to the binding that was introduced
under the name. For each function around the current frame the copies it holds can be traced: the
source is what the name means before the parameters of the function, or it is held by a function
further out. In the second case the name means the same before both, unless the copy was taken
along by a reference to the function further out.
-/
namespace LispScope

namespace FrameTree

variable {tree before after : FrameTree} {id : FrameId} {ids : List FrameId}

/-- The way from a binding to its origin, with the frames that hold the copies on it. -/
inductive Trail (tree : FrameTree) : BindingId → List FrameId → BindingId → Prop
  | origin (entry : tree.Entry binding name frame none) : Trail tree binding [] binding
  | copy (entry : tree.Entry binding name frame (some source))
      (rest : Trail tree source holders origin) : Trail tree binding (frame :: holders) origin

namespace Trail

variable {binding origin : BindingId} {holders : List FrameId}

theorem keeps (keeps : before.KeepsBindings after) (trail : before.Trail binding holders origin) :
    after.Trail binding holders origin := by
  induction trail with
  | origin entry => exact .origin (entry.keeps keeps)
  | copy entry _ ih => exact .copy (entry.keeps keeps) ih

theorem unique {others : List FrameId} {other : BindingId} (trail : tree.Trail binding holders origin)
    (trail' : tree.Trail binding others other) : others = holders ∧ other = origin := by
  induction trail generalizing others with
  | origin entry =>
    cases trail' with
    | origin => exact ⟨rfl, rfl⟩
    | copy entry' => cases (entry.unique entry').2.2
  | copy entry _ ih =>
    cases trail' with
    | origin entry' => cases (entry.unique entry').2.2
    | copy entry' rest =>
      obtain ⟨_, rfl, same⟩ := entry.unique entry'
      cases same
      obtain ⟨rfl, rfl⟩ := ih rest
      exact ⟨rfl, rfl⟩

/-- Every binding of a sound tree has an origin, under the same name and further out than all
copies on the way. -/
theorem exists_of_entry (sound : tree.Sound) {name : Symbol} {frame : FrameId}
    {source : Option BindingId} (entry : tree.Entry binding name frame source) :
    ∃ holders origin outer, tree.Trail binding holders origin ∧ tree.Entry origin name outer none ∧
      (∀ holder ∈ holders, outer < holder) ∧ outer ≤ frame := by
  induction binding using Nat.strongRecOn generalizing frame source with
  | ind binding ih =>
    cases source with
    | none => exact ⟨[], binding, frame, .origin entry, entry, by simp, Nat.le_refl _⟩
    -- A source has a smaller number than its copy.
    | some source =>
      obtain ⟨earlier, next, origin, entry', further⟩ := sound.sources _ _ _ _ entry
      obtain ⟨holders, origin, outer, trail, original, outside, inside⟩ := ih source earlier entry'
      have below := Nat.lt_of_le_of_lt inside further
      refine ⟨frame :: holders, origin, outer, .copy entry trail, original, ?_, Nat.le_of_lt below⟩
      intro holder member
      obtain rfl | member := List.mem_cons.mp member
      · exact below
      · exact outside holder member

/-- The origin of a copy stands further out than the copies. -/
theorem outside (sound : tree.Sound) {name : Symbol} {outer : FrameId}
    (trail : tree.Trail binding holders origin) (original : tree.Entry origin name outer none) :
    ∀ holder ∈ holders, outer < holder := by
  have : ∃ name frame source, tree.Entry binding name frame source := by
    cases trail with
    | origin entry => exact ⟨_, _, _, entry⟩
    | copy entry => exact ⟨_, _, _, entry⟩
  obtain ⟨_, _, _, entry⟩ := this
  obtain ⟨holders', origin', outer', trail', original', outside, _⟩ := exists_of_entry sound entry
  obtain ⟨rfl, rfl⟩ := trail.unique trail'
  obtain ⟨_, rfl, _⟩ := original.unique original'
  exact outside

end Trail

/-- Follows the sources from a binding, for at most the given number of steps. -/
def follow (tree : FrameTree) : Nat → BindingId → Option BindingId
  | 0, _ => none
  | steps + 1, id => do
    let binding ← tree.binding? id
    match binding.capturedFrom with
    | none => return id
    | some source => tree.follow steps source

/-- The binding that a binding goes back to. Sources have smaller numbers than their copies. -/
def origin? (tree : FrameTree) (id : BindingId) : Option BindingId :=
  tree.follow tree.bindings.size id

theorem Sound.origin?_iff (sound : tree.Sound) {binding origin : BindingId} :
    tree.origin? binding = some origin ↔ ∃ holders, tree.Trail binding holders origin := by
  constructor
  · rw [origin?]
    generalize tree.bindings.size = steps
    intro followed
    induction steps generalizing binding with
    | zero => cases followed
    | succ steps ih =>
      simp only [follow, Option.bind_eq_bind, Option.bind_eq_some_iff] at followed
      obtain ⟨held, found, followed⟩ := followed
      cases copied : held.capturedFrom with
      | none =>
        rw [copied] at followed
        cases followed
        exact ⟨[], .origin ⟨held, found, rfl, rfl, copied⟩⟩
      | some source =>
        rw [copied] at followed
        obtain ⟨holders, trail⟩ := ih followed
        exact ⟨held.frame :: holders, .copy ⟨held, found, rfl, rfl, copied⟩ trail⟩
  · rintro ⟨holders, trail⟩
    -- As numbers decrease, as many steps as the number of the binding are enough.
    have enough {steps : Nat} (inRange : binding < steps) :
        tree.follow steps binding = some origin := by
      induction trail generalizing steps with
      | origin entry =>
        obtain ⟨steps, rfl⟩ := Nat.exists_eq_succ_of_ne_zero (Nat.ne_zero_of_lt inRange)
        obtain ⟨held, found, _, _, original⟩ := entry
        simp [follow, found, original]
      | copy entry rest ih =>
        obtain ⟨steps, rfl⟩ := Nat.exists_eq_succ_of_ne_zero (Nat.ne_zero_of_lt inRange)
        have earlier := (sound.sources _ _ _ _ entry).1
        obtain ⟨held, found, _, _, copied⟩ := entry
        simp [follow, found, copied, ih (Nat.lt_of_lt_of_le earlier (Nat.le_of_lt_succ inRange))]
    have inRange : binding < tree.bindings.size := by
      cases trail with
      | origin entry => exact entry.lt
      | copy entry => exact entry.lt
    exact enough inRange

/-- Copies stay where they are. -/
theorem Grows.copy? (grows : before.Grows after) (sound : after.Sound) {name : Symbol}
    {copy : BindingId} (held : before.copy? id name = some copy) :
    after.copy? id name = some copy :=
  sound.copy?_of_mem (grows.mem_captured (mem_captured_of_copy? held))

/-! ### Tracing copies -/

/-- A copy that a function holds under a name comes from what the name means before the parameters
of the function, or from a copy of a function further out, before whose parameters the name means
the same unless the copy was taken along. -/
def Traced (taken : FrameId → FrameId → Prop) (tree : FrameTree) (frame : FrameId)
    (outer : List FrameId) (name : Symbol) (copy : BindingId) : Prop :=
  ∃ source, tree.Entry copy name frame (some source) ∧
    (tree.around frame outer name = some (.binding source) ∨
      ∃ between target further, outer = between ++ target :: further ∧
        tree.copy? target name = some source ∧
        (tree.around frame outer name = tree.around target further name ∨ taken frame target))

/-- All copies that the functions on a path hold can be traced. -/
def Live (taken : FrameId → FrameId → Prop) (tree : FrameTree) (ids : List FrameId) : Prop :=
  ∀ inner frame outer, ids = inner ++ frame :: outer → ∀ name copy,
    tree.copy? frame name = some copy → Traced taken tree frame outer name copy

variable {taken : FrameId → FrameId → Prop}

/-- Copies stay traced while the tree grows and names mean the same before the functions of the
path; it remains to trace the new ones. -/
theorem Live.step (live : Live taken before ids) (grows : before.Grows after) (sound : after.Sound)
    (arounds : ∀ inner frame outer, ids = inner ++ frame :: outer → ∀ name,
      after.around frame outer name = before.around frame outer name)
    (new : ∀ inner frame outer, ids = inner ++ frame :: outer → ∀ name copy,
      after.copy? frame name = some copy →
      before.copy? frame name = some copy ∨ Traced taken after frame outer name copy) :
    Live taken after ids := by
  intro inner frame outer split name copy held
  obtain old | traced := new inner frame outer split name copy held
  -- What is held further out stays there, and what names mean before both functions too.
  · obtain ⟨source, entry, means⟩ := live inner frame outer split name copy old
    refine ⟨source, entry.keeps grows.bindings, ?_⟩
    rw [arounds inner frame outer split]
    obtain means | ⟨between, target, further, rfl, held, link⟩ := means
    · exact .inl means
    · refine .inr ⟨between, target, further, rfl, grows.copy? sound held, ?_⟩
      rw [arounds (inner ++ frame :: between) target further (by simp [split])]
      exact link
  · exact traced

/-- Where names mean the same and no copies are added, all copies stay traced. -/
theorem Live.congr (live : Live taken before ids) (grows : before.Grows after) (sound : after.Sound)
    (agrees : AgreesOn ids before after)
    (captured : ∀ id ∈ ids, after.captured id = before.captured id) : Live taken after ids := by
  refine live.step grows sound ?_ ?_
  · rintro inner frame outer rfl name
    have outside : AgreesOn (frame :: outer) before after :=
      agrees.mono fun id member => List.mem_append_right _ member
    exact outside.around name
  · rintro inner frame outer rfl name copy held
    rw [copy?_congr (captured frame (by simp))] at held
    exact .inl held

theorem Live.tail {inner : FrameId} (live : Live taken tree (inner :: ids)) :
    Live taken tree ids := by
  intro first frame outer split
  exact live (inner :: first) frame outer (by simp [split])

theorem Live.bind {frame : FrameId} {name : Symbol} {initial : Option Expr} {needsBox : Bool}
    {binding : BindingId} (live : Live taken before ids) (sound : before.Sound)
    (path : before.Path frame ids)
    (bound : before.bind frame name initial needsBox = some (binding, after)) :
    Live taken after ids := by
  obtain ⟨_, captured, _, _⟩ := bind_views bound
  refine live.step (bind_grows bound).1 (sound.bind bound) ?_ ?_
  · exact fun inner other outer split asked => bind_around bound sound path split
  · intro inner other outer split asked copy held
    rw [copy?_congr (captured other)] at held
    exact .inl held

/-- A frame that is opened holds no copies. -/
theorem Live.enter {opening : Opening} {frame inner : FrameId} (live : Live taken before ids)
    (sound : after.Sound) (path : before.Path frame ids)
    (opened : before.enter opening frame = (inner, after)) : Live taken after (inner :: ids) := by
  obtain ⟨others, _, empty⟩ := enter_views opened
  have agrees := enter_agreesOn opened path
  have live := live.congr (enter_grows opened).1 sound agrees fun id member =>
    (others id (Nat.ne_of_lt (path.lt_opened opened member))).2.1
  intro first other outer split name copy held
  obtain ⟨rfl, rfl⟩ | ⟨rest, rfl⟩ := split_longer split
  · rw [copy?_eq_find?, empty] at held
    cases held
  · exact live rest other outer rfl name copy held

/-- Frames that have nothing to say about a name leave its meaning to the frames further out. -/
theorem around_of_silent {frame at_ : FrameId} {between outer : List FrameId} {name : Symbol}
    (silent : ∀ other ∈ frame :: between, tree.answer? other name = none) :
    tree.around frame (between ++ at_ :: outer) name = tree.meaning (at_ :: outer) name := by
  have unnamed := (answer?_none.mp (silent frame (List.mem_cons_self ..))).2.2
  rw [around, unnamed, meaning_append_of_silent fun other member =>
    own?_of_silent (silent other (List.mem_cons_of_mem _ member))]
  rfl

/-- A path is split at a frame in one way only. -/
theorem Path.split_unique {frame target : FrameId} {first inner outer rest : List FrameId}
    (path : tree.Path id ids) (sound : tree.Sound) (split : ids = inner ++ target :: outer)
    (split' : ids = first ++ frame :: rest) (member : frame ∈ inner) :
    ∃ between, inner = first ++ frame :: between ∧ rest = between ++ target :: outer := by
  obtain ⟨first', between, rfl⟩ := List.append_of_mem member
  have distinct := path.nodup sound.ordered
  rw [split'] at split distinct
  have apart := List.nodup_append.mp distinct
  have unlisted : frame ∉ rest := (List.nodup_cons.mp apart.2.1).1
  have unlisted' : frame ∉ first := fun among => apart.2.2 frame among frame (by simp) rfl
  rw [List.append_assoc, List.cons_append] at split
  obtain ⟨rfl, -, rfl⟩ := (List.append_cons_inj_of_notMem unlisted' unlisted).mp split
  exact ⟨between, rfl, rfl⟩

/-- The first function that is left on the way to a frame is the nearest one. -/
theorem Path.nearest {nearest target : FrameId} {inner outer rest : List FrameId}
    (path : tree.Path id ids) (sound : tree.Sound) (split : ids = inner ++ target :: outer)
    (crossed : inner.filter tree.isFunction = nearest :: rest) :
    nearest ∈ inner ∧ (ids.filter tree.isFunction).head? = some nearest ∧ nearest ≠ target := by
  have among : nearest ∈ inner.filter tree.isFunction := crossed ▸ List.mem_cons_self ..
  obtain ⟨member, _⟩ := List.mem_filter.mp among
  have distinct := List.nodup_append.mp (split ▸ path.nodup sound.ordered)
  refine ⟨member, ?_, distinct.2.2 nearest member target (List.mem_cons_self ..)⟩
  rw [split, List.filter_append, crossed]
  rfl

/-- A use copies what the name means into the functions that it leaves. -/
theorem Live.use {name : Symbol} {source binding : BindingId} {crossed : List FrameId}
    {boxed : Bool} {between : FrameTree} (live : Live taken before ids) (sound : before.Sound)
    (path : before.Path id ids) (refers : before.Refers id name ⟨.binding source, crossed⟩)
    (captured : before.capture ⟨source, crossed⟩ = some (binding, between))
    (noted : between.noteUse binding boxed = some after) : Live taken after ids := by
  have fills := use_fills captured noted
  obtain ⟨sound', _, inner, at_, outer, split, silent, answers, rfl, others, added, _⟩ :=
    use_spec sound path refers captured noted
  refine live.step fills.grows sound' ?_ ?_
  · exact fun _ _ _ _ asked => fills.sameNames.agreesOn.around asked
  · intro first frame rest split' asked copy held
    by_cases left : frame ∈ inner.filter before.isFunction
    -- The function is left: it holds its old copies and the new one of the name.
    · obtain ⟨new, appended, entry⟩ := added frame left
      have member := mem_captured_of_copy? held
      rw [appended, List.mem_append, List.mem_singleton] at member
      obtain old | same := member
      · exact .inl (sound.copy?_of_mem old)
      · cases same
        obtain ⟨among, _⟩ := List.mem_filter.mp left
        obtain ⟨between, rfl, rfl⟩ := path.split_unique sound split split' among
        have means : after.around frame (between ++ at_ :: outer) name =
            before.meaning (at_ :: outer) name := by
          rw [fills.sameNames.agreesOn.around]
          exact around_of_silent fun other member => silent other (by simp_all)
        refine .inr ⟨source, entry, ?_⟩
        rw [means]
        -- The frame that answers binds the name itself, or it is a function that holds a copy.
        obtain bound | ⟨unbound, copied⟩ := answer?_binding.mp answers
        · exact .inl (by simp [meaning_cons, own?, bound])
        · refine .inr ⟨between, at_, outer, rfl, fills.grows.copy? sound' copied, .inl ?_⟩
          rw [meaning_of_unbound unbound, fills.sameNames.agreesOn.around]
    · rw [copy?_congr (others frame left)] at held
      exact .inl held

/-- A use refers to a binding inside the nearest function, which the name means, or to the copy that
the nearest function holds, before whose parameters the name means the same. -/
theorem use_holder {name : Symbol} {source binding : BindingId} {crossed : List FrameId}
    {boxed : Bool} {between : FrameTree} (sound : before.Sound) (path : before.Path id ids)
    (refers : before.Refers id name ⟨.binding source, crossed⟩)
    (captured : before.capture ⟨source, crossed⟩ = some (binding, between))
    (noted : between.noteUse binding boxed = some after) :
    (∃ frame, after.Entry binding name frame none ∧
      after.meaning ids name = some (.binding binding) ∧
      ∀ other ∈ ids, after.isFunction other = true → other ≤ frame) ∨
    ∃ inner holder outer, ids = inner ++ holder :: outer ∧
      (∀ other ∈ inner, ¬ after.isFunction other = true) ∧
      after.copy? holder name = some binding ∧
      after.meaning ids name = after.around holder outer name := by
  have fills := use_fills captured noted
  have names := fills.sameNames
  have functions : after.isFunction = before.isFunction := funext names.isFunction
  obtain ⟨sound', _, inner, at_, outer, split, silent, answers, rfl, _, _, used⟩ :=
    use_spec sound path refers captured noted
  -- Frames before the answer have no say in what the name means.
  have skips {front back : List FrameId} (split : ids = front ++ back)
      (quiet : ∀ other ∈ front, before.answer? other name = none) :
      after.meaning ids name = before.meaning back name := by
    rw [names.agreesOn.meaning, split]
    exact meaning_append_of_silent fun other member => own?_of_silent (quiet other member)
  have means := skips split silent
  rw [functions]
  -- Without a function on the way the use refers to the answer itself, otherwise to the first copy.
  obtain ⟨stays, rfl⟩ | ⟨nearest, rest, crossed, copied⟩ := used
  · obtain bound | ⟨unbound, copied⟩ := answer?_binding.mp answers
    · refine .inl ⟨at_, (sound.locals _ _ _ bound).keeps fills.bindings, ?_, ?_⟩
      · rw [means]
        simp [meaning_cons, own?, bound]
      · intro other member function
        rw [split] at member path
        obtain inside | outside := List.mem_append.mp member
        · exact absurd function (List.filter_eq_nil_iff.mp stays other inside)
        · obtain rfl | outside := List.mem_cons.mp outside
          · exact Nat.le_refl _
          · exact Nat.le_of_lt (path.suffix.lt_of_outer sound.ordered outside)
    · refine .inr ⟨inner, at_, outer, split, List.filter_eq_nil_iff.mp stays,
        fills.grows.copy? sound' copied, ?_⟩
      rw [means, meaning_of_unbound unbound, names.agreesOn.around]
  · obtain ⟨front, between, rfl, none_, _⟩ := List.filter_eq_cons_iff.mp crossed
    rw [List.append_assoc, List.cons_append] at split
    refine .inr ⟨front, nearest, between ++ at_ :: outer, split, none_, copied, ?_⟩
    have unbound := (answer?_none.mp (silent nearest (by simp))).1
    rw [skips split fun other among => silent other (by simp [among]), meaning_of_unbound unbound,
      names.agreesOn.around]

/-- A reference to an enclosing function lets the nearest function take its copies along. -/
theorem Live.self {name : Symbol} {target : FrameId} {crossed : List FrameId}
    (live : Live taken before ids) (sound : before.Sound) (path : before.Path id ids)
    (refers : before.Refers id name ⟨.self target, crossed⟩)
    (along : before.captureSelf id ⟨target, crossed⟩ = some after)
    (noted : ∀ nearest, (ids.filter before.isFunction).head? = some nearest → nearest ≠ target →
      taken nearest target) : Live taken after ids := by
  have fills := captureSelf_fills along
  obtain ⟨sound', _, inner, outer, split, silent, answers, rfl, spec⟩ :=
    self_spec sound path refers along
  obtain ⟨_, rfl⟩ | ⟨nearest, left, crossed, others, added⟩ := spec
  · exact live
  · refine live.step fills.grows sound' ?_ ?_
    · exact fun _ _ _ _ asked => fills.sameNames.agreesOn.around asked
    · intro first frame rest split' asked copy held
      by_cases here : frame = nearest
      · subst here
        obtain old | ⟨source, copied, entry⟩ := added _ (mem_captured_of_copy? held)
        · exact .inl (sound.copy?_of_mem old)
        -- A copy that was taken along need not have what the name means here for a source.
        · obtain ⟨member, first, apart⟩ := path.nearest sound split crossed
          obtain ⟨between, rfl, rfl⟩ := path.split_unique sound split split' member
          exact .inr ⟨source, entry, .inr ⟨between, target, outer, rfl,
            fills.grows.copy? sound' copied, .inr (noted frame first apart)⟩⟩
      · rw [copy?_congr (others frame here)] at held
        exact .inl held

/-! ### Relayed copies -/

/-- A copy is relayed along the path further out: its origin stands there, and all functions before
the origin hold a copy with the same origin. -/
def Relayed (tree : FrameTree) (outer : List FrameId) (name : Symbol) (copy : BindingId) : Prop :=
  ∀ holders origin frame, tree.Trail copy holders origin → tree.Entry origin name frame none →
    frame ∈ outer ∧ ∀ other ∈ outer, tree.isFunction other = true → frame < other →
      ∃ held others, tree.copy? other name = some held ∧ tree.Trail held others origin

/-- All copies are relayed. -/
def Closed (tree : FrameTree) : Prop :=
  ∀ id outer, tree.Path id (id :: outer) → ∀ name copy, tree.copy? id name = some copy →
    tree.Relayed outer name copy

/-- A copy stays relayed. -/
theorem Relayed.grows {outer : List FrameId} {name : Symbol} {copy : BindingId}
    (relayed : before.Relayed outer name copy) (path : before.Path id (id :: outer))
    (held : before.copy? id name = some copy) (sound : before.Sound) (grows : before.Grows after)
    (sound' : after.Sound) : after.Relayed outer name copy := by
  intro holders origin frame trail original
  obtain ⟨_, _, entry⟩ := sound.captures id name copy held
  obtain ⟨holders', origin', frame', trail', original', _, _⟩ := Trail.exists_of_entry sound entry
  -- The trail of an old copy is that of the old tree.
  obtain ⟨rfl, rfl⟩ := trail.unique (trail'.keeps grows.bindings)
  obtain ⟨_, rfl, _⟩ := original.unique (original'.keeps grows.bindings)
  obtain ⟨onPath, relays⟩ := relayed _ _ _ trail' original'
  refine ⟨onPath, fun other member function further => ?_⟩
  obtain ⟨_, found⟩ := path.mem_frame (List.mem_cons_of_mem _ member)
  rw [grows.isFunction found] at function
  obtain ⟨kept, others, present, rest⟩ := relays other member function further
  exact ⟨kept, others, grows.copy? sound' present, rest.keeps grows.bindings⟩

/-- Where old copies are relayed, it remains to look at the new ones. -/
theorem Closed.step (closed : before.Closed) (sound : before.Sound) (grows : before.Grows after)
    (sound' : after.Sound)
    (new : ∀ id outer, after.Path id (id :: outer) → ∀ name copy,
      after.copy? id name = some copy →
      before.copy? id name = some copy ∨ after.Relayed outer name copy) : after.Closed := by
  intro id outer path name copy held
  obtain old | relayed := new id outer path name copy held
  · have present : ∃ frame, before.frame? id = some frame := by
      simp only [FrameTree.copy?, Option.bind_eq_some_iff] at old
      exact ⟨_, old.choose_spec.1⟩
    -- The frame is an old one, so its path is too.
    have path := path.back grows sound.ordered present.choose_spec
    exact (closed id outer path name copy old).grows path old sound grows sound'
  · exact relayed

/-- Where no copies are added, all copies stay relayed. -/
theorem Closed.congr (closed : before.Closed) (sound : before.Sound) (grows : before.Grows after)
    (sound' : after.Sound) (captured : ∀ id, after.captured id = before.captured id) :
    after.Closed := by
  refine closed.step sound grows sound' fun id outer path name copy held => .inl ?_
  rwa [copy?_congr (captured id)] at held

/-- A use makes copies in all functions up to the frame that answers, and what this frame holds is
relayed further out. -/
theorem Closed.use {name : Symbol} {source binding : BindingId} {crossed : List FrameId}
    {boxed : Bool} {between : FrameTree} (closed : before.Closed) (sound : before.Sound)
    (path : before.Path id ids) (refers : before.Refers id name ⟨.binding source, crossed⟩)
    (captured : before.capture ⟨source, crossed⟩ = some (binding, between))
    (noted : between.noteUse binding boxed = some after) : after.Closed := by
  have fills := use_fills captured noted
  obtain ⟨sound', _, inner, at_, outer, rfl, silent, answers, rfl, others, added, _⟩ :=
    use_spec sound path refers captured noted
  have onward := path.suffix
  refine closed.step sound fills.grows sound' ?_
  intro holder rest path' asked copy held
  by_cases left : holder ∈ inner.filter before.isFunction
  · obtain ⟨new, appended, entry⟩ := added holder left
    have member := mem_captured_of_copy? held
    rw [appended, List.mem_append, List.mem_singleton] at member
    obtain old | same := member
    · exact .inl (sound.copy?_of_mem old)
    cases same
    refine .inr fun holders origin frame trail original => ?_
    obtain ⟨first, between, rfl⟩ := List.append_of_mem (List.mem_filter.mp left).1
    rw [List.append_assoc, List.cons_append] at path
    cases path'.unique (path.suffix.grows fills.grows)
    cases trail with
    | origin entry' => cases (entry.unique entry').2.2
    | copy entry' trail =>
      cases (entry.unique entry').2.2
      -- It is enough to look at the frame that answers and further out, as the functions before it
      -- have got copies from the same source.
      suffices frame ∈ at_ :: outer ∧ ∀ other ∈ at_ :: outer, after.isFunction other = true →
          frame < other → ∃ held others, after.copy? other name = some held ∧
            after.Trail held others origin by
        refine ⟨List.mem_append_right _ this.1, fun other member function further => ?_⟩
        obtain inside | outside := List.mem_append.mp member
        · rw [fills.sameNames.isFunction] at function
          obtain ⟨made, appended, entry⟩ :=
            added other (List.mem_filter.mpr ⟨by simp [inside], function⟩)
          exact ⟨made, _, sound'.copy?_of_append appended, .copy entry trail⟩
        · exact this.2 other outside function further
      obtain bound | ⟨_, copied⟩ := answer?_binding.mp answers
      · -- A binding is its own origin, and nothing further out lies inside of it.
        have local_ := (sound.locals _ _ _ bound).keeps fills.bindings
        obtain ⟨rfl, rfl⟩ := trail.unique (.origin local_)
        obtain ⟨_, rfl, _⟩ := local_.unique original
        refine ⟨List.mem_cons_self .., fun other member _ further => ?_⟩
        obtain rfl | outside := List.mem_cons.mp member
        · exact absurd further (Nat.lt_irrefl _)
        · exact absurd (onward.lt_of_outer sound.ordered outside) (Nat.lt_asymm further)
      · have relayed := (closed _ _ onward _ _ copied).grows onward copied sound fills.grows sound'
        obtain ⟨onPath, relays⟩ := relayed _ _ _ trail original
        refine ⟨List.mem_cons_of_mem _ onPath, fun other member function further => ?_⟩
        obtain rfl | outside := List.mem_cons.mp member
        · exact ⟨source, _, fills.grows.copy? sound' copied, trail⟩
        · exact relays other outside function further
  · rw [copy?_congr (others holder left)] at held
    exact .inl held

/-- A reference to an enclosing function that leaves no function makes no copies. -/
theorem Closed.self {name : Symbol} {target : FrameId} {crossed : List FrameId}
    (closed : before.Closed) (sound : before.Sound) (path : before.Path id ids)
    (refers : before.Refers id name ⟨.self target, crossed⟩)
    (along : before.captureSelf id ⟨target, crossed⟩ = some after)
    (here : ∀ nearest, (ids.filter before.isFunction).head? = some nearest → nearest = target) :
    after.Closed := by
  obtain ⟨_, _, inner, outer, split, _, _, rfl, spec⟩ := self_spec sound path refers along
  obtain ⟨_, rfl⟩ | ⟨nearest, _, crossed, _⟩ := spec
  · exact closed
  · obtain ⟨_, first, apart⟩ := path.nearest sound split crossed
    exact absurd (here nearest first) apart

end FrameTree

/-! ### Along a run -/

/-- A reference to an enclosing function crosses a boundary: it stands inside another function, which
is nearer. -/
def Expr.Crosses (tree : FrameTree) (expr : Expr) (nearest target : FrameId) : Prop :=
  ∃ scope found, (scope, found) ∈ expr.scoped tree ∧ found.node.recursesTo? = some target ∧
    scope.functions.head?.map Prod.fst = some nearest ∧ nearest ≠ target

/-- What is known about copies in a frame with a scope. -/
structure Tracks (taken : FrameId → FrameId → Prop) (scope : Scope) (frame : FrameId)
    (ids : List FrameId) (tree : FrameTree) : Prop where
  path : tree.Path frame ids
  sound : tree.Sound
  sees : Sees tree ids scope
  live : tree.Live taken ids
  closed : (∀ nearest target, ¬ taken nearest target) → tree.Closed

namespace Tracks

variable {taken : FrameId → FrameId → Prop} {scope : Scope} {frame : FrameId} {ids : List FrameId}
  {before after final : FrameTree}

/-- What changes no names and adds no copies changes nothing that is known. -/
theorem congr (tracks : Tracks taken scope frame ids before) (grows : before.Grows after)
    (sound : after.Sound) (names : before.SameNames after)
    (captured : ∀ id, after.captured id = before.captured id) :
    Tracks taken scope frame ids after := by
  obtain ⟨path, sound', sees, live, closed⟩ := tracks
  exact ⟨path.grows grows, sound, sees.congr names.agreesOn,
    live.congr grows sound names.agreesOn fun id _ => captured id,
    fun quiet => (closed quiet).congr sound' grows sound captured⟩

theorem bind {binding : BindingId} {how : Introduction}
    (tracks : Tracks taken scope frame ids before) (binds : Binds frame binding how before after)
    (grows : after.Grows final) : Tracks taken (scope.bind final binding) frame ids after := by
  obtain ⟨path, sound, sees, live, closed⟩ := tracks
  obtain ⟨_, _, _, _, bound⟩ := binds.bound
  have grown := binds.grows.1
  have sound' := sound.bind bound
  exact ⟨path.grows grown, sound', sees.bind sound path bound grows, live.bind sound path bound,
    fun quiet => (closed quiet).congr sound grown sound' (FrameTree.bind_views bound).2.1⟩

theorem enter {opening : Opening} {inner : FrameId} {known : Option FrameId}
    (tracks : Tracks taken scope frame ids before)
    (opened : before.enter opening frame = (inner, after)) (recorded : opening.Records inner known) :
    Tracks taken ((scopeTraversal final).enter scope opening known) inner (inner :: ids)
      after := by
  obtain ⟨path, sound, sees, live, closed⟩ := tracks
  obtain ⟨others, _, empty⟩ := FrameTree.enter_views opened
  have grows := (FrameTree.enter_grows opened).1
  have sound' := sound.enter path opened
  refine ⟨path.opened opened, sound', sees.enter path opened recorded,
    live.enter sound' path opened, fun quiet => ?_⟩
  -- The new frame holds no copies, and the others hold those they held.
  refine (closed quiet).step sound grows sound' fun id outer _ name copy held => ?_
  by_cases same : id = inner
  · rw [FrameTree.copy?_eq_find?, same, empty] at held
    cases held
  · rw [FrameTree.copy?_congr (others id same).2.1] at held
    exact .inl held

/-- Outside of a frame that is left, names mean what they meant before. -/
theorem leave {config : Config} {opening : Opening} {inner : FrameId} {last : Scope}
    {script : List Step} {tree : FrameTree} {others : List FrameId} {before between : Store}
    (tracks : Tracks taken scope frame ids before.tree)
    (opened : before.tree.enter opening frame = (inner, tree))
    (run : Enacts config inner script { before with tree } between)
    (inside : Tracks taken last inner others between.tree) :
    Tracks taken scope frame ids between.tree := by
  have grows := (FrameTree.enter_grows opened).1.trans run.grows
  -- The path inside is the one outside with the frame in front, so it need only be shortened.
  cases inside.path.unique ((tracks.path.opened opened).grows run.grows)
  exact ⟨tracks.path.grows grows, inside.sound,
    tracks.sees.congr (run.agreesOn opened tracks.path), inside.live.tail, inside.closed⟩

theorem updateFunction {change : FnContext → FnContext} {target : FrameId}
    (tracks : Tracks taken scope frame ids before) (notes : FnContext.Notes change)
    (updated : before.updateFrame target (Frame.updateFunction change) = some after) :
    Tracks taken scope frame ids after := by
  have ⟨names, captured⟩ := FrameTree.updateFunction_sameNames notes updated
  have grows := (FrameTree.updateFunction_grows notes updated).1
  exact tracks.congr grows (tracks.sound.updateFunction notes updated) names captured

theorem use {name : Symbol} {source binding : BindingId} {crossed : List FrameId} {boxed : Bool}
    {between : FrameTree} (tracks : Tracks taken scope frame ids before)
    (refers : before.Refers frame name ⟨.binding source, crossed⟩)
    (captured : before.capture ⟨source, crossed⟩ = some (binding, between))
    (noted : between.noteUse binding boxed = some after) : Tracks taken scope frame ids after := by
  obtain ⟨path, sound, sees, live, closed⟩ := tracks
  have fills := FrameTree.use_fills captured noted
  exact ⟨path.grows fills.grows, (FrameTree.use_spec sound path refers captured noted).1,
    sees.congr fills.sameNames.agreesOn, live.use sound path refers captured noted,
    fun quiet => (closed quiet).use sound path refers captured noted⟩

theorem self {name : Symbol} {target : FrameId} {crossed : List FrameId}
    (tracks : Tracks taken scope frame ids before)
    (refers : before.Refers frame name ⟨.self target, crossed⟩)
    (along : before.captureSelf frame ⟨target, crossed⟩ = some after)
    (noted : ∀ nearest, scope.functions.head?.map Prod.fst = some nearest → nearest ≠ target →
      taken nearest target) : Tracks taken scope frame ids after := by
  obtain ⟨path, sound, sees, live, closed⟩ := tracks
  have fills := FrameTree.captureSelf_fills along
  rw [← List.head?_map, sees.functions] at noted
  refine ⟨path.grows fills.grows, (FrameTree.self_spec sound path refers along).1,
    sees.congr fills.sameNames.agreesOn, live.self sound path refers along noted, fun quiet => ?_⟩
  -- If nothing is ever taken along, the reference leads to the nearest function.
  refine (closed quiet).self sound path refers along fun nearest first => ?_
  exact Classical.byContradiction fun apart => quiet nearest target (noted nearest first apart)

theorem effect {node : Node Expr} (tracks : Tracks taken scope frame ids before)
    (effect : Effect frame node before after)
    (noted : ∀ nearest target, node.recursesTo? = some target →
      scope.functions.head?.map Prod.fst = some nearest → nearest ≠ target →
      taken nearest target) : Tracks taken scope frame ids after := by
  cases effect with
  | lifts _ _ lifts =>
    exact tracks.congr lifts.fills.grows (tracks.sound.lifts lifts) lifts.fills.sameNames
      lifts.captured
  | uses _ _ refers captured noted => exact tracks.use refers captured noted
  | recurs _ self refers along marked =>
    have between := tracks.self refers along fun nearest => noted nearest _ self
    obtain ⟨_, rfl⟩ | ⟨_, updated⟩ := marked
    · exact between
    · exact between.updateFunction FnContext.markNamed_notes updated

/-- Every step of a run preserves what is known. -/
theorem carries (config : Config) (final : FrameTree) (root : Expr) :
    (scopeTraversal final).Carries config final (Below (Node.scopes final) .top root)
      fun scope frame store => ∃ ids, Tracks (root.Crosses final) scope frame ids store.tree := by
  constructor
  case lawful => exact scopeTraversal.lawful final
  case handsDown => exact fun below member => below.child member
  case bind =>
    rintro scope frame binding how tree before ⟨ids, tracks⟩ binds grows
    exact ⟨ids, tracks.bind binds grows⟩
  case count =>
    rintro scope frame arity tree before ⟨ids, tracks⟩ counts
    have ⟨names, captured⟩ := FrameTree.counts_sameNames counts
    exact ⟨ids, tracks.congr counts.grows.1 (counts.sound tracks.sound) names captured⟩
  case enter =>
    rintro scope frame opening known inner tree before ⟨ids, tracks⟩ opened recorded
    exact ⟨inner :: ids, tracks.enter opened recorded⟩
  case leave =>
    rintro scope last frame opening inner tree script before between ⟨ids, tracks⟩ opened run
      ⟨others, inside⟩
    exact ⟨ids, tracks.leave opened run inside⟩
  case begins =>
    rintro scope frame place expr before after ⟨ids, tracks⟩ below _ begins
    -- A node that crosses a boundary is one of the expression.
    refine ⟨ids, tracks.effect begins.effect ?_⟩
    exact fun nearest target self first apart =>
      ⟨scope, expr, Expr.mem_scoped.mpr below, self, first, apart⟩
  case ends =>
    rintro scope frame node before after ⟨ids, tracks⟩ ends
    cases ends with
    | jump _ marked => exact ⟨ids, tracks.updateFunction FnContext.markTail_notes marked⟩
    | idle => exact ⟨ids, tracks⟩

/-- Nothing is known in the root but that there is nothing. -/
theorem initial (taken : FrameId → FrameId → Prop) :
    Tracks taken .top FrameTree.rootId [FrameTree.rootId] .initial := by
  have none_ (id : FrameId) (name : Symbol) : FrameTree.initial.copy? id name = none := by
    cases id <;> rfl
  refine ⟨.root rfl rfl, FrameTree.sound_initial, ⟨fun _ _ => rfl, rfl, ?_⟩, ?_, ?_⟩
  · intro inner frame outer split function
    cases frame <;> cases function
  · intro inner frame outer split name copy held
    rw [none_] at held
    cases held
  · intro _ id outer path name copy held
    rw [none_] at held
    cases held

end Tracks

/-- The tree of a result is sound. -/
theorem Session.analyze_sound {σ : Type} {analyzer : Analyzer σ} {depth : Nat} {form : Form}
    {session : Session σ} {analysis : Analysis}
    (analyzed : ((Session.analyze analyzer depth form).run session).1 = .ok analysis) :
    analysis.tree.Sound := by
  obtain ⟨names, run⟩ := Session.analyze_enacts analyzed
  exact run.sound (.root rfl rfl) FrameTree.sound_initial

/-- A run on nodes of an expression, with what is known about copies all along it. -/
abbrev Tracked (config : Config) (final : FrameTree) (root : Expr) :
    Scope → FrameId → List Step → Store → Store → Prop :=
  Observed (scopeTraversal final) config final (Below (Node.scopes final) .top root)
    fun scope frame store => ∃ ids, Tracks (root.Crosses final) scope frame ids store.tree

/-- Every result comes from such a run. -/
theorem Session.analyze_tracked {σ : Type} {analyzer : Analyzer σ} {depth : Nat} {form : Form}
    {session : Session σ} {analysis : Analysis}
    (analyzed : ((Session.analyze analyzer depth form).run session).1 = .ok analysis) :
    ∃ names, Tracked analyzer.config analysis.tree analysis.expr .top FrameTree.rootId
        [.visit .operand analysis.expr] ⟨.initial, session.names⟩ ⟨analysis.tree, names⟩ ∧
      ∃ ids, Tracks (analysis.expr.Crosses analysis.tree) .top FrameTree.rootId ids
        analysis.tree := by
  obtain ⟨names, run⟩ := Session.analyze_enacts analyzed
  have carries := Tracks.carries analyzer.config analysis.tree analysis.expr
  exact ⟨names, Observed.of_enacts carries run (.refl _) (by simpa using Below.here)
    ⟨_, Tracks.initial _⟩⟩

/-- Every node of a result was reached at a moment at which its scope was right. -/
theorem Session.analyze_tracks {σ : Type} {analyzer : Analyzer σ} {depth : Nat} {form : Form}
    {session : Session σ} {analysis : Analysis}
    (analyzed : ((Session.analyze analyzer depth form).run session).1 = .ok analysis)
    {scope : Scope} {found : Expr} (member : (scope, found) ∈ analysis.expr.scoped analysis.tree) :
    ∃ frame ids before after,
      Tracks (analysis.expr.Crosses analysis.tree) scope frame ids before.tree ∧
      Begins frame found.node before after ∧ after.tree.Grows analysis.tree := by
  obtain ⟨names, tracked, _⟩ := Session.analyze_tracked analyzed
  have root : (Scope.top, analysis.expr) ∈
      (scopeTraversal analysis.tree).views .top [.visit .operand analysis.expr] := by
    simp
  obtain ⟨around, place, frame, before, after, rfl, _, ⟨ids, tracks⟩, begins, _, grows⟩ :=
    tracked.moment (scopeTraversal.lawful _) root (Expr.mem_scoped.mp member)
  exact ⟨frame, ids, before, after, tracks, begins, grows⟩

end LispScope
