import LispScope.Proofs.Growth

/-!
# Paths

The path of a frame lists the frames from it to the root by number. As parents never change, a
path stays the same while the tree grows; what the frames on it hold is read off the tree of the
moment. A search along a lineage splits the path at the frame that has the answer.
-/
namespace LispScope

namespace FrameTree

/-- The frames from a frame to the root. -/
inductive Path (tree : FrameTree) : FrameId → List FrameId → Prop
  | root {id : FrameId} (held : tree.frame? id = some frame) (top : frame.parent = none) :
      Path tree id [id]
  | step {id : FrameId} (held : tree.frame? id = some frame) (inside : frame.parent = some parent)
      (path : Path tree parent ids) : Path tree id (id :: ids)

/-- A frame is opened after the one around it. -/
def Ordered (tree : FrameTree) : Prop :=
  ∀ id frame parent, tree.frame? id = some frame → frame.parent = some parent → parent < id

namespace Path

variable {tree before after : FrameTree} {id : FrameId} {ids : List FrameId}

theorem head (path : tree.Path id ids) : ∃ outer, ids = id :: outer := by
  cases path with
  | root => exact ⟨[], rfl⟩
  | step => exact ⟨_, rfl⟩

theorem frame (path : tree.Path id ids) : ∃ frame, tree.frame? id = some frame := by
  cases path with
  | root held => exact ⟨_, held⟩
  | step held => exact ⟨_, held⟩

theorem grows (grows : before.Grows after) (path : before.Path id ids) : after.Path id ids := by
  induction path with
  | root held top =>
    obtain ⟨grown, held, same⟩ := grows.frames _ _ held
    exact .root held (same.parent.trans top)
  | step held inside _ ih =>
    obtain ⟨grown, held, same⟩ := grows.frames _ _ held
    exact .step held (same.parent.trans inside) ih

theorem unique {others : List FrameId} (path : tree.Path id ids) (other : tree.Path id others) :
    ids = others := by
  induction path generalizing others with
  | root held top =>
    cases other with
    -- The same frame cannot both be the root and have a parent.
    | root => rfl
    | step held' inside =>
      rw [held] at held'
      cases held'
      simp [top] at inside
  | step held inside _ ih =>
    cases other with
    | root held' top =>
      rw [held] at held'
      cases held'
      simp [top] at inside
    | step held' inside' path =>
      rw [held] at held'
      cases held'
      rw [inside] at inside'
      cases inside'
      rw [ih path]

/-- Whatever is on a path has the rest of it as its own path. -/
theorem suffix {inner outer : List FrameId} {other : FrameId}
    (path : tree.Path id (inner ++ other :: outer)) : tree.Path other (other :: outer) := by
  induction inner generalizing id with
  | nil =>
    obtain ⟨rest, same⟩ := path.head
    cases same
    exact path
  | cons first inner ih =>
    -- Something follows the first frame, so the path goes on from it.
    generalize same : first :: inner ++ other :: outer = ids at path
    cases path with
    | root => simp at same
    | step held inside path =>
      cases same
      exact ih path

/-- Numbers decrease along a path. -/
theorem decreasing (ordered : tree.Ordered) (path : tree.Path id ids) :
    ids.Pairwise (fun inner outer => outer < inner) := by
  induction path with
  | root => exact List.pairwise_singleton ..
  | step held inside path ih =>
    have below := ordered _ _ _ held inside
    obtain ⟨outer, rfl⟩ := path.head
    refine List.pairwise_cons.mpr ⟨?_, ih⟩
    intro other member
    obtain rfl | member := List.mem_cons.mp member
    · exact below
    · exact Nat.lt_trans ((List.pairwise_cons.mp ih).1 other member) below

/-- Whatever is further out on a path has a smaller number. -/
theorem lt_of_outer {outer : List FrameId} {other : FrameId} (ordered : tree.Ordered)
    (path : tree.Path id (id :: outer)) (member : other ∈ outer) : other < id :=
  (List.pairwise_cons.mp (path.decreasing ordered)).1 other member

theorem nodup (ordered : tree.Ordered) (path : tree.Path id ids) : ids.Nodup :=
  (path.decreasing ordered).imp fun smaller => Nat.ne_of_gt smaller

/-- Every frame has a path. -/
theorem exists_of_frame {frame : Frame} (ordered : tree.Ordered)
    (held : tree.frame? id = some frame) : ∃ ids, tree.Path id ids := by
  induction id using Nat.strongRecOn generalizing frame with
  | ind id ih =>
    cases above : frame.parent with
    | none => exact ⟨[id], .root held above⟩
    | some parent =>
      -- The parent has a smaller number, and thus a path already.
      have below := ordered id frame parent held above
      have inRange := Nat.lt_trans below (frame?_lt held)
      obtain ⟨ids, path⟩ := ih parent below (Array.getElem?_eq_getElem inRange)
      exact ⟨id :: ids, .step held above path⟩

/-- The path of an old frame was the same before. -/
theorem back {frame : Frame} (grows : before.Grows after) (ordered : before.Ordered)
    (held : before.frame? id = some frame) (path : after.Path id ids) : before.Path id ids := by
  obtain ⟨others, path'⟩ := exists_of_frame ordered held
  cases path.unique (path'.grows grows)
  exact path'

/-- The path of a frame that is opened leads on along the path of its parent. -/
theorem opened {opening : Opening} {inner : FrameId} (path : before.Path id ids)
    (opened : before.enter opening id = (inner, after)) : after.Path inner (inner :: ids) := by
  obtain ⟨_, _, _, held, _⟩ := enter_some opened
  exact .step held rfl (path.grows (enter_grows opened).1)

end Path

/-! ### Lineages -/

variable {tree after : FrameTree} {id : FrameId} {lineage : Lineage}

/-- A lineage is a path together with the frames on it. -/
theorem climb_some {steps : Nat} (climbed : tree.climb steps id = some lineage) :
    tree.Path id (lineage.map Prod.fst) ∧
      ∀ entry ∈ lineage, tree.frame? entry.1 = some entry.2 := by
  induction steps generalizing id lineage with
  | zero => cases climbed
  | succ steps ih =>
    simp only [climb, Option.bind_eq_bind, Option.bind_eq_some_iff] at climbed
    obtain ⟨frame, held, climbed⟩ := climbed
    cases above : frame.parent with
    | none =>
      rw [above] at climbed
      cases climbed
      exact ⟨.root held above, by simpa using held⟩
    | some parent =>
      simp only [above, Option.bind_eq_some_iff, Option.pure_def, Option.some.injEq] at climbed
      obtain ⟨outer, climbed, rfl⟩ := climbed
      obtain ⟨path, frames⟩ := ih climbed
      refine ⟨.step held above path, ?_⟩
      intro entry member
      obtain rfl | member := List.mem_cons.mp member
      · exact held
      · exact frames entry member

/-- As parents come first, a frame is at most as many steps away from the root as its number. -/
theorem climb_of_path {ids : List FrameId} {steps : Nat} (ordered : tree.Ordered)
    (path : tree.Path id ids) (enough : id < steps) :
    ∃ lineage, tree.climb steps id = some lineage := by
  induction path generalizing steps with
  | root held top =>
    obtain ⟨steps, rfl⟩ := Nat.exists_eq_succ_of_ne_zero (Nat.ne_zero_of_lt enough)
    exact ⟨[_], by simp [climb, held, top]; rfl⟩
  | step held inside _ ih =>
    obtain ⟨steps, rfl⟩ := Nat.exists_eq_succ_of_ne_zero (Nat.ne_zero_of_lt enough)
    have below := ordered _ _ _ held inside
    obtain ⟨outer, climbed⟩ := @ih steps (Nat.lt_of_lt_of_le below (Nat.le_of_lt_succ enough))
    exact ⟨_ :: outer, by simp [climb, held, inside, climbed]; rfl⟩

theorem lineage_some (found : tree.lineage id = some lineage) :
    tree.Path id (lineage.map Prod.fst) ∧
      ∀ entry ∈ lineage, tree.frame? entry.1 = some entry.2 :=
  climb_some found

theorem lineage_of_path {ids : List FrameId} (ordered : tree.Ordered) (path : tree.Path id ids) :
    ∃ lineage, tree.lineage id = some lineage := by
  obtain ⟨frame, held⟩ := path.frame
  exact climb_of_path ordered path (frame?_lt held)

/-! ### What the frames on a path hold -/

/-- The binding of a name in a frame. -/
def bound? (tree : FrameTree) (id : FrameId) (name : Symbol) : Option BindingId :=
  (tree.frame? id).bind fun frame => frame.locals.get? name

/-- The copy that a frame holds under a name. -/
def copy? (tree : FrameTree) (id : FrameId) (name : Symbol) : Option BindingId :=
  (tree.frame? id).bind fun frame => frame.captures.get? name

/-- All copies that a frame holds, with their names, oldest first. -/
def captured (tree : FrameTree) (id : FrameId) : List (Symbol × BindingId) :=
  (tree.frame? id).elim [] fun frame => frame.captures.entries

theorem copy?_eq_find? (tree : FrameTree) (id : FrameId) (name : Symbol) :
    tree.copy? id name =
      ((tree.captured id).find? fun entry => entry.1 == name).map Prod.snd := by
  cases held : tree.frame? id <;> simp [copy?, captured, held, Registry.get?]

/-- The frame itself, if it is that of a function with the given name. -/
def self? (tree : FrameTree) (id : FrameId) (name : Symbol) : Option FrameId :=
  (tree.frame? id).bind fun frame => frame.self? id name

/-- Whether a frame is that of a function. -/
def isFunction (tree : FrameTree) (id : FrameId) : Bool := (tree.frame? id).any Frame.isFunction

/-- What a name refers to by a frame alone. -/
def answer? (tree : FrameTree) (id : FrameId) (name : Symbol) : Option Referent :=
  (tree.bound? id name <|> tree.copy? id name).map .binding <|> (tree.self? id name).map .self

theorem answer?_none {name : Symbol} : tree.answer? id name = none ↔
    tree.bound? id name = none ∧ tree.copy? id name = none ∧ tree.self? id name = none := by
  simp [answer?, and_assoc]

/-- A name refers to a binding of the frame, or else to a copy. -/
theorem answer?_binding {name : Symbol} {binding : BindingId} :
    tree.answer? id name = some (.binding binding) ↔ tree.bound? id name = some binding ∨
      (tree.bound? id name = none ∧ tree.copy? id name = some binding) := by
  cases bound : tree.bound? id name <;> cases copy : tree.copy? id name <;>
    simp [answer?, bound, copy]

/-- A name refers to a function if its frame neither binds nor copies it. -/
theorem answer?_self {name : Symbol} {target : FrameId} :
    tree.answer? id name = some (.self target) ↔ tree.bound? id name = none ∧
      tree.copy? id name = none ∧ tree.self? id name = some target := by
  cases bound : tree.bound? id name <;> cases copy : tree.copy? id name <;>
    simp [answer?, bound, copy]

theorem self?_some {name : Symbol} {target : FrameId} (self : tree.self? id name = some target) :
    target = id ∧ ∃ frame context, tree.frame? id = some frame ∧
      frame.function? = some context ∧ context.name = some name.name := by
  simp only [self?, Option.bind_eq_some_iff] at self
  obtain ⟨frame, held, named⟩ := self
  rw [Frame.self?, Option.ite_none_right_eq_some] at named
  obtain ⟨named, same⟩ := named
  rw [Frame.isNamed, Option.any_eq_true] at named
  obtain ⟨context, known, named⟩ := named
  exact ⟨(Option.some.inj same).symm, frame, context, held, known, by simpa using named⟩

theorem search_some {ask : FrameId → Frame → Option α} {target : α} {crossed : List FrameId}
    (frames : ∀ entry ∈ lineage, tree.frame? entry.1 = some entry.2)
    (found : lineage.search ask = some ⟨target, crossed⟩) :
    ∃ inner id outer, lineage.map Prod.fst = inner ++ id :: outer ∧
      (∀ other ∈ inner, (tree.frame? other).bind (ask other) = none) ∧
      (tree.frame? id).bind (ask id) = some target ∧ crossed = inner.filter tree.isFunction := by
  induction lineage generalizing crossed with
  | nil => cases found
  | cons entry lineage ih =>
    obtain ⟨id, frame⟩ := entry
    have held := frames _ (List.mem_cons_self ..)
    rw [Lineage.search] at found
    cases answer : ask id frame with
    | some result =>
      rw [answer] at found
      cases found
      exact ⟨[], id, _, rfl, by simp, by simp [held, answer], rfl⟩
    -- The frame has nothing to say: the search goes on, and a function is crossed.
    | none =>
      simp only [answer, Option.map_eq_some_iff] at found
      obtain ⟨⟨result, others⟩, found, crosses⟩ := found
      rw [Lineage.cross] at crosses
      have aside : tree.isFunction id = frame.isFunction := by simp [isFunction, held]
      have outside := fun entry member => frames entry (List.mem_cons_of_mem _ member)
      split at crosses
      next isFunction =>
        cases crosses
        obtain ⟨inner, last, outer, split, silent, answers, rfl⟩ := ih outside found
        refine ⟨id :: inner, last, outer, by simp [split], ?_, answers, ?_⟩
        · simpa [held, answer] using silent
        · simp [aside, isFunction]
      next notFunction =>
        cases crosses
        obtain ⟨inner, last, outer, split, silent, answers, rfl⟩ := ih outside found
        refine ⟨id :: inner, last, outer, by simp [split], ?_, answers, ?_⟩
        · simpa [held, answer] using silent
        · simp [aside, notFunction]

/-- What a name refers to is the answer of the first frame on the path that has one. -/
theorem Refers.split {name : Symbol} {target : Referent} {crossed ids : List FrameId}
    (refers : tree.Refers id name ⟨target, crossed⟩) (path : tree.Path id ids) :
    name.isQualified = false ∧ ∃ inner at_ outer, ids = inner ++ at_ :: outer ∧
      (∀ other ∈ inner, tree.answer? other name = none) ∧ tree.answer? at_ name = some target ∧
      crossed = inner.filter tree.isFunction := by
  obtain ⟨lineage, climbed, resolved⟩ := refers
  obtain ⟨path', frames⟩ := lineage_some climbed
  cases path.unique path'
  rw [Lineage.resolve] at resolved
  split at resolved
  next => cases resolved
  next plain =>
    -- What the search asks a frame is what its tables answer: names first, then copies, then its
    -- own function.
    have asks (other : FrameId) : tree.answer? other name = (tree.frame? other).bind fun frame =>
        ((frame.binding? true name).map .binding) <|> ((frame.self? other name).map .self) := by
      cases held : tree.frame? other <;>
        simp [answer?, bound?, copy?, self?, held, Frame.binding?]
    obtain ⟨inner, last, outer, split, silent, answers, rfl⟩ := search_some frames resolved
    refine ⟨by simpa using plain, inner, last, outer, split, ?_, (asks last).trans answers, rfl⟩
    exact fun other member => (asks other).trans (silent other member)

/-- The nearest function of a frame is the first one on its path, if there is any. -/
theorem closestFunction_of_path {nearest target : FrameId} {ids crossed : List FrameId}
    (closest : tree.closestFunction id = some nearest) (path : tree.Path id ids)
    (first : ids.filter tree.isFunction = target :: crossed) : nearest = target := by
  simp only [closestFunction, Option.bind_eq_bind, Option.bind_eq_some_iff] at closest
  obtain ⟨lineage, climbed, closest⟩ := closest
  obtain ⟨path', frames⟩ := lineage_some climbed
  cases path.unique path'
  clear climbed path path'
  induction lineage with
  | nil => cases first
  | cons entry lineage ih =>
    obtain ⟨other, frame⟩ := entry
    have held := frames _ (List.mem_cons_self ..)
    have aside : tree.isFunction other = frame.isFunction := by simp [isFunction, held]
    cases lineage with
    | nil =>
      -- The root is taken for the nearest function in any case; here it is one.
      simp only [Lineage.closestFunction, Option.some.injEq] at closest
      simp only [List.map_cons, List.map_nil, List.filter_cons, List.filter_nil] at first
      split at first
      next => rw [← closest, (List.cons.inj first).1]
      next => cases first
    | cons next outer =>
      rw [Lineage.closestFunction] at closest
      · rw [List.map_cons, List.filter_cons, aside] at first
        split at closest
        next isFunction =>
          rw [if_pos isFunction] at first
          rw [← Option.some.inj closest]
          exact (List.cons.inj first).1
        next notFunction =>
          rw [if_neg notFunction] at first
          exact ih closest (fun entry member => frames entry (List.mem_cons_of_mem _ member)) first
      · simp

/-- The nearest function of a frame is the first one on its path. -/
theorem closestFunction_of_first {target : FrameId} {ids crossed : List FrameId}
    (ordered : tree.Ordered) (path : tree.Path id ids)
    (first : ids.filter tree.isFunction = target :: crossed) :
    tree.closestFunction id = some target := by
  obtain ⟨lineage, climbed⟩ := lineage_of_path ordered path
  -- A lineage is never empty, and its root stands in for a missing function.
  have some_ (entry : FrameId × Frame) (outer : Lineage) :
      ∃ nearest, Lineage.closestFunction (entry :: outer) = some nearest := by
    induction outer generalizing entry with
    | nil => exact ⟨entry.1, rfl⟩
    | cons next outer ih =>
      rw [Lineage.closestFunction]
      · split
        next => exact ⟨entry.1, rfl⟩
        next => exact ih next
      · simp
  obtain ⟨rest, same⟩ := (lineage_some climbed).1.head
  cases lineage with
  | nil => cases same
  | cons entry outer =>
    obtain ⟨nearest, closest⟩ := some_ entry outer
    have closest : tree.closestFunction id = some nearest := by
      simp [closestFunction, climbed, closest]
    rw [closest, closestFunction_of_path closest path first]

/-- The function around a frame is the first one on the rest of its path. -/
theorem enclosingFunction_split {target : FrameId} {outer : List FrameId}
    (path : tree.Path id (id :: outer))
    (enclosing : (tree.lineage id).bind Lineage.enclosingFunction = some target) :
    ∃ inner rest, outer = inner ++ target :: rest ∧ tree.isFunction target = true ∧
      ∀ other ∈ inner, ¬ tree.isFunction other = true := by
  obtain ⟨lineage, climbed, first⟩ := Option.bind_eq_some_iff.mp enclosing
  obtain ⟨path', frames⟩ := lineage_some climbed
  have along := path'.unique path
  cases lineage with
  | nil => cases along
  | cons entry lineage =>
    obtain ⟨rfl, rfl⟩ := List.cons.inj along
    rw [Lineage.enclosingFunction, List.tail_cons, Option.map_eq_some_iff] at first
    obtain ⟨found, first, rfl⟩ := first
    obtain ⟨function, inner, rest, rfl, others⟩ := List.find?_eq_some_iff_append.mp first
    have aside (other : FrameId × Frame) (member : other ∈ inner ++ found :: rest) :
        tree.isFunction other.1 = other.2.isFunction := by
      simp [isFunction, frames other (List.mem_cons_of_mem _ member)]
    refine ⟨inner.map Prod.fst, rest.map Prod.fst, by simp, ?_, ?_⟩
    · rw [aside found (by simp)]
      exact function
    · intro other member
      obtain ⟨other, among, rfl⟩ := List.mem_map.mp member
      rw [aside other (by simp [among])]
      simpa using others other among

/-! ### What changes do to what frames hold -/

/-- The frames bind the same names, belong to the same functions and have the same parents. -/
structure SameNames (before after : FrameTree) : Prop where
  bound? : ∀ id name, after.bound? id name = before.bound? id name
  self? : ∀ id name, after.self? id name = before.self? id name
  isFunction : ∀ id, after.isFunction id = before.isFunction id
  parent : ∀ id frame, after.frame? id = some frame →
    ∃ old, before.frame? id = some old ∧ frame.parent = old.parent

theorem SameNames.ordered {before after : FrameTree} (same : before.SameNames after)
    (ordered : before.Ordered) : after.Ordered := by
  intro id frame parent held above
  obtain ⟨old, held, sameParent⟩ := same.parent id frame held
  exact ordered id old parent held (sameParent.symm.trans above)

/-- The notes on a function do not change its name. -/
theorem isNamed_of_outline {before after : Frame} (outline : after.outline? = before.outline?)
    (name : String) : after.isNamed name = before.isNamed name := by
  have reads (frame : Frame) :
      frame.isNamed name = frame.outline?.any fun context => context.name = some name := by
    cases known : frame.function? <;>
      simp [Frame.isNamed, Frame.outline?, known, FnContext.outline]
  rw [reads, reads, outline]

theorem Grows.isFunction {before after : FrameTree} (grows : before.Grows after) {frame : Frame}
    (held : before.frame? id = some frame) : after.isFunction id = before.isFunction id := by
  obtain ⟨grown, held', same⟩ := grows.frames id frame held
  simp [FrameTree.isFunction, held, held', same.isFunction]

/-- Frames that are changed one by one, apart from their names, keep all of this. -/
theorem sameNames_of_frames {before after : FrameTree}
    (size : after.frames.size = before.frames.size)
    (frames : ∀ id frame, before.frame? id = some frame →
      ∃ changed, after.frame? id = some changed ∧ changed.kind = frame.kind ∧
        changed.outline? = frame.outline? ∧ changed.parent = frame.parent ∧
        changed.locals = frame.locals) :
    before.SameNames after := by
  have absent {id : FrameId} (missing : before.frame? id = none) : after.frame? id = none := by
    simp only [frame?, Array.getElem?_eq_none_iff, size] at missing ⊢
    exact missing
  -- Every frame is there on both sides, with the same names, or on neither.
  have each (id : FrameId) :
      (before.frame? id = none ∧ after.frame? id = none) ∨ ∃ frame changed,
        before.frame? id = some frame ∧ after.frame? id = some changed ∧
        changed.kind = frame.kind ∧ changed.outline? = frame.outline? ∧
        changed.parent = frame.parent ∧ changed.locals = frame.locals := by
    cases held : before.frame? id with
    | none => exact .inl ⟨rfl, absent held⟩
    | some frame =>
      obtain ⟨changed, held', same⟩ := frames id frame held
      exact .inr ⟨frame, changed, rfl, held', same⟩
  constructor
  case bound? =>
    intro id name
    obtain ⟨held, held'⟩ | ⟨frame, changed, held, held', _, _, _, locals⟩ := each id
    · simp [bound?, held, held']
    · simp [bound?, held, held', locals]
  case self? =>
    intro id name
    obtain ⟨held, held'⟩ | ⟨frame, changed, held, held', _, outline, _, _⟩ := each id
    · simp [self?, held, held']
    · simp [self?, held, held', Frame.self?, isNamed_of_outline outline]
  case isFunction =>
    intro id
    obtain ⟨held, held'⟩ | ⟨frame, changed, held, held', kind, _, _, _⟩ := each id
    · simp [isFunction, held, held']
    · simp [isFunction, held, held', Frame.isFunction, kind]
  case parent =>
    intro id changed held'
    obtain ⟨_, missing⟩ | ⟨frame, changed', held, found, _, _, parent, _⟩ := each id
    · rw [missing] at held'
      cases held'
    · cases found.symm.trans held'
      exact ⟨frame, held, parent⟩

theorem Fills.sameNames {before after : FrameTree} (fills : before.Fills after) :
    before.SameNames after := by
  refine sameNames_of_frames fills.size ?_
  intro id frame held
  obtain ⟨filled, held, same⟩ := fills.frames id frame held
  exact ⟨filled, held, same.kind, same.grows.outline, same.parent, same.locals⟩

/-- A change of one frame that touches neither its names nor its copies. -/
theorem updateFrame_sameNames {change : Frame → Frame} {target : FrameId}
    (updated : tree.updateFrame target change = some after)
    (stays : ∀ held, tree.frame? target = some held → held.Grows (change held) ∧
      (change held).locals = held.locals ∧ (change held).captures = held.captures) :
    tree.SameNames after ∧ ∀ id, after.captured id = tree.captured id := by
  obtain ⟨held, found, _, size, changed, others⟩ := updateFrame_some updated
  obtain ⟨grows, locals, captures⟩ := stays held found
  refine ⟨sameNames_of_frames size ?_, ?_⟩
  · intro id frame present
    by_cases same : id = target
    · subst same
      cases found.symm.trans present
      exact ⟨_, changed, grows.kind, grows.outline, grows.parent, locals⟩
    · exact ⟨frame, (others id same).trans present, rfl, rfl, rfl, rfl⟩
  · intro id
    by_cases same : id = target
    · subst same
      simp [captured, found, changed, captures]
    · simp [captured, others id same]

theorem updateFunction_sameNames {change : FnContext → FnContext} {target : FrameId}
    (notes : FnContext.Notes change)
    (updated : tree.updateFrame target (Frame.updateFunction change) = some after) :
    tree.SameNames after ∧ ∀ id, after.captured id = tree.captured id :=
  updateFrame_sameNames updated fun held _ => ⟨Frame.updateFunction_grows notes held, rfl, rfl⟩

/-- Counting the names of a loop binds none. -/
theorem fillLoop_sameNames {frame : FrameId} {arity : Nat}
    (counted : tree.updateFrame frame (Frame.fillLoop arity) = some after) :
    tree.SameNames after ∧ ∀ id, after.captured id = tree.captured id :=
  updateFrame_sameNames counted fun held _ => ⟨Frame.fillLoop_grows held arity, rfl, rfl⟩

theorem counts_sameNames {frame : FrameId} {arity : Nat} (counts : Counts frame arity tree after) :
    tree.SameNames after ∧ ∀ id, after.captured id = tree.captured id := by
  obtain ⟨_, _, _, counted⟩ := counts
  exact fillLoop_sameNames counted

theorem Lifts.captured (lifts : tree.Lifts after) (id : FrameId) :
    after.captured id = tree.captured id := by
  cases held : tree.frame? id with
  | none =>
    have absent : after.frame? id = none := by
      simp only [frame?, Array.getElem?_eq_none_iff, lifts.size] at held ⊢
      exact held
    simp [FrameTree.captured, held, absent]
  | some frame =>
    obtain ⟨lifted, held', same⟩ := lifts.frames id frame held
    simp [FrameTree.captured, held, held', same.captures]

theorem copy?_congr (same : after.captured id = tree.captured id) (name : Symbol) :
    after.copy? id name = tree.copy? id name := by
  rw [copy?_eq_find?, copy?_eq_find?, same]

/-- No copy is given up. -/
theorem Grows.mem_captured {entry : Symbol × BindingId} (grows : tree.Grows after)
    (member : entry ∈ tree.captured id) : entry ∈ after.captured id := by
  cases held : tree.frame? id with
  | none => simp [captured, held] at member
  | some frame =>
    obtain ⟨grown, held', same⟩ := grows.frames id frame held
    simp only [captured, held, held', Option.elim_some] at member ⊢
    exact same.captures.subset member

/-- A copy is appended to those of its frame. -/
theorem Copies.captured {name : Symbol} {source copy : BindingId} {frame : FrameId}
    (copies : Copies name source frame copy tree after) (other : FrameId) :
    after.captured other =
      if other = frame then tree.captured other ++ [(name, copy)] else tree.captured other := by
  obtain ⟨held, found, _, changed⟩ := copies.added
  by_cases same : other = frame
  · subst same
    simp [FrameTree.captured, found, changed, Registry.push]
  · simp [FrameTree.captured, same, copies.others other same]

theorem Copies.copy? {name : Symbol} {source copy : BindingId} {frame : FrameId}
    (copies : Copies name source frame copy tree after) (other : FrameId) (asked : Symbol) :
    after.copy? other asked =
      if other = frame ∧ asked = name then some copy else tree.copy? other asked := by
  obtain ⟨held, found, absent, changed⟩ := copies.added
  by_cases same : other = frame
  · subst same
    simp only [FrameTree.copy?, found, changed, Option.bind_some, Registry.get?_push, true_and]
    by_cases named : asked = name
    · subst named
      simp [absent]
    · simp [named, Ne.symm named]
  · simp [FrameTree.copy?, same, copies.others other same]

theorem noteUse_captured {binding : BindingId} {boxed : Bool}
    (noted : tree.noteUse binding boxed = some after) (id : FrameId) :
    after.captured id = tree.captured id := by
  simp [captured, frame?, (noteUse_some noted).1]

theorem bind_views {frame : FrameId} {name : Symbol} {initial : Option Expr} {needsBox : Bool}
    {binding : BindingId} (bound : tree.bind frame name initial needsBox = some (binding, after)) :
    (∀ id asked, after.bound? id asked =
      if id = frame ∧ asked = name then some binding else tree.bound? id asked) ∧
    (∀ id, after.captured id = tree.captured id) ∧
    (∀ id asked, after.self? id asked = tree.self? id asked) ∧
    (∀ id, after.isFunction id = tree.isFunction id) := by
  obtain ⟨_, _, _, ⟨held, found, changed⟩, others⟩ := bind_some bound
  refine ⟨?_, ?_, ?_, ?_⟩
  · intro id asked
    by_cases same : id = frame
    · subst same
      simp [bound?, found, changed, Table.get?_insert]
    · simp [bound?, same, others id same]
  · intro id
    by_cases same : id = frame
    · subst same
      simp [captured, found, changed]
    · simp [captured, others id same]
  · intro id asked
    by_cases same : id = frame
    · subst same
      simp only [self?, found, changed, Option.bind_some]
      rfl
    · simp [self?, others id same]
  · intro id
    by_cases same : id = frame
    · subst same
      simp only [isFunction, found, changed, Option.any_some]
      rfl
    · simp [isFunction, others id same]

/-- A new frame binds and holds nothing. -/
theorem views_of_push {new : Frame} (pushed : after.frames = tree.frames.push new)
    (unbound : new.locals = .empty) (uncaptured : new.captures = .empty) :
    (∀ id, id ≠ tree.frames.size → (∀ name, after.bound? id name = tree.bound? id name) ∧
      after.captured id = tree.captured id ∧ (∀ name, after.self? id name = tree.self? id name) ∧
      after.isFunction id = tree.isFunction id) ∧
    (∀ name, after.bound? tree.frames.size name = none) ∧
      after.captured tree.frames.size = [] := by
  obtain ⟨_, held, others⟩ := frame?_push pushed
  refine ⟨?_, ?_, ?_⟩
  · intro id differs
    simp [bound?, captured, self?, isFunction, others id differs]
  · intro name
    simp [bound?, held, unbound]
  · simp [captured, held, uncaptured, Registry.empty]

theorem openFrame_views {kind : FrameKind} {parent inner : FrameId}
    (opened : tree.openFrame kind parent = (inner, after)) :
    (∀ id, id ≠ inner → (∀ name, after.bound? id name = tree.bound? id name) ∧
      after.captured id = tree.captured id ∧ (∀ name, after.self? id name = tree.self? id name) ∧
      after.isFunction id = tree.isFunction id) ∧
    (∀ name, after.bound? inner name = none) ∧ after.captured inner = [] := by
  cases opened
  exact views_of_push rfl rfl rfl

theorem enter_views {opening : Opening} {parent inner : FrameId}
    (opened : tree.enter opening parent = (inner, after)) :
    (∀ id, id ≠ inner → (∀ name, after.bound? id name = tree.bound? id name) ∧
      after.captured id = tree.captured id ∧ (∀ name, after.self? id name = tree.self? id name) ∧
      after.isFunction id = tree.isFunction id) ∧
    (∀ name, after.bound? inner name = none) ∧ after.captured inner = [] := by
  cases opened
  exact views_of_push rfl rfl rfl

end FrameTree

end LispScope
