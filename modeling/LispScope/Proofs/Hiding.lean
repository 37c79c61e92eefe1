import LispScope.Proofs.Closure
import LispScope.Proofs.Layout
import LispScope.Proofs.Scoping

/-!
# Hidden origins

A finished tree can be asked in two ways what a function has captured under a name: the copy that the
function holds leads to its origin by way of sources, and `Lineage.findOrigin` searches the frames around
the function for the name. The search knows the names of the finished frames only, so it finds the origin
exactly if no other binding of the name *hides* it: one that stands nearer to the function, or one that
was made later in the same frame.

Two things can hide an origin. A `let*` or `loop*` may bind the name again after the function, and the
copy may have been taken along to a place where the name means something else. There is nothing else
(`Session.analyze_origins`).
-/
namespace LispScope

namespace FrameTree

variable {tree before after : FrameTree} {id inner outer : FrameId} {ids : List FrameId}
  {name : Symbol}

/-! ### Frames around a frame -/

theorem Around.lt (ordered : tree.Ordered) (around : tree.Around outer inner) : outer < inner := by
  obtain ⟨ids, path, member⟩ := around
  exact path.lt_of_outer ordered member

theorem Around.trans {middle : FrameId} (first : tree.Around outer middle)
    (second : tree.Around middle inner) : tree.Around outer inner := by
  obtain ⟨ids, path, member⟩ := first
  obtain ⟨others, path', member'⟩ := second
  obtain ⟨front, back, rfl⟩ := List.append_of_mem member'
  -- Whatever is around the frame in the middle is on the rest of the path.
  rw [← List.cons_append] at path'
  cases path.unique path'.suffix
  exact ⟨_, path', by simp [member]⟩

/-- What stands around an old frame stood there before. -/
theorem Around.back {frame : Frame} (around : after.Around outer inner) (grows : before.Grows after)
    (ordered : before.Ordered) (held : before.frame? inner = some frame) :
    before.Around outer inner := by
  obtain ⟨ids, path, member⟩ := around
  exact ⟨ids, path.back grows ordered held, member⟩

/-- A binding that was there before had the same name, frame and source. -/
theorem Entry.back_of_lt {binding : BindingId} {frame : FrameId} {source : Option BindingId}
    (entry : after.Entry binding name frame source) (grows : before.Grows after)
    (early : binding < before.bindings.size) : before.Entry binding name frame source := by
  have known : before.Entry binding _ _ _ := ⟨_, Array.getElem?_eq_getElem early, rfl, rfl, rfl⟩
  obtain ⟨rfl, rfl, rfl⟩ := (known.keeps grows.bindings).unique entry
  exact known

theorem frame_of_copy? {copy : BindingId} (held : tree.copy? id name = some copy) :
    ∃ frame, tree.frame? id = some frame := by
  rw [copy?, Option.bind_eq_some_iff] at held
  obtain ⟨frame, found, _⟩ := held
  exact ⟨frame, found⟩

/-- The origin of a copy stands around the function that holds the copy. -/
theorem Nests.origin_around (nests : tree.Nests) {copy source origin : BindingId} {frame : FrameId}
    {holders : List FrameId} (trail : tree.Trail copy holders origin)
    (entry : tree.Entry copy name frame (some source)) :
    ∃ outer, tree.Entry origin name outer none ∧ tree.Around outer frame := by
  induction trail generalizing frame source with
  | origin entry' => cases (entry.unique entry').2.2
  | copy entry' rest ih =>
    cases (entry.unique entry').2.2
    obtain ⟨_, outer, further, original, around⟩ := nests _ _ _ _ entry
    cases further with
    | none =>
      obtain ⟨_, rfl⟩ := (Trail.origin original).unique rest
      exact ⟨outer, original, around⟩
    | some next =>
      obtain ⟨outermost, original, around'⟩ := ih original
      exact ⟨outermost, original, around'.trans around⟩

/-- Where copies are added only, every other binding was there before. -/
theorem AddsCopies.lt_of_original {binding : BindingId} {frame : FrameId}
    (adds : before.AddsCopies after) (entry : after.Entry binding name frame none) :
    binding < before.bindings.size := by
  by_contra late
  exact (adds.held _ _ _ _ entry (Nat.not_lt.mp late)).1 rfl

/-! ### The last binding of a name -/

/-- A frame binds a name to the last binding that was made for it there. -/
def Latest (tree : FrameTree) : Prop :=
  ∀ binding name frame, tree.Entry binding name frame none →
    ∃ last, tree.bound? frame name = some last ∧ binding ≤ last

theorem latest_initial : FrameTree.initial.Latest := by
  rintro binding name frame ⟨held, found, _⟩
  cases found

theorem Latest.bind {frame : FrameId} {initial : Option Expr} {needsBox : Bool} {binding : BindingId}
    (latest : before.Latest)
    (bound : before.bind frame name initial needsBox = some (binding, after)) : after.Latest := by
  obtain ⟨bounds, _⟩ := bind_views bound
  obtain ⟨rfl, pushed, _⟩ := bind_some bound
  intro other asked holder entry
  rw [bounds]
  rcases (Entry.push_iff pushed).mp entry with ⟨rfl, rfl, rfl, _⟩ | old
  · exact ⟨_, if_pos ⟨rfl, rfl⟩, Nat.le_refl _⟩
  · split
    · exact ⟨_, rfl, Nat.le_of_lt old.lt⟩
    · exact latest other asked holder old

theorem Latest.enter {opening : Opening} {parent : FrameId} (latest : before.Latest)
    (opened : before.enter opening parent = (inner, after)) : after.Latest := by
  obtain ⟨rfl, bindings, _⟩ := enter_some opened
  intro binding asked frame entry
  obtain ⟨last, bound, le⟩ := latest binding asked frame
    (entry.back (enter_grows opened).1.bindings (by rw [bindings]))
  -- A frame that binds a name was there before.
  obtain ⟨held, found, _⟩ := Option.bind_eq_some_iff.mp bound
  have older := (enter_views opened).1 frame (Nat.ne_of_lt (frame?_lt found))
  exact ⟨last, (older.1 asked).trans bound, le⟩

/-- What adds copies only does not concern the names of frames. -/
theorem Latest.adds (latest : before.Latest) (adds : before.AddsCopies after)
    (keeps : ∀ id frame, before.frame? id = some frame → ∀ name,
      after.bound? id name = before.bound? id name) : after.Latest := by
  intro binding asked frame entry
  have old := entry.back_of_lt adds.grows (adds.lt_of_original entry)
  obtain ⟨last, bound, le⟩ := latest _ _ _ old
  obtain ⟨held, found, _⟩ := Option.bind_eq_some_iff.mp bound
  exact ⟨last, (keeps _ held found _).trans bound, le⟩

theorem Latest.effect {frame : FrameId} {node : Node Expr} (latest : before.Latest)
    (effect : Effect frame node before after) : after.Latest :=
  latest.adds effect.addsCopies fun _ _ found =>
    (effect.grows.1.agrees found (effect.grows.2 _)).1

theorem Latest.ends {node : Node Expr} {before after : Store} (latest : before.tree.Latest)
    (ends : Ends node before after) : after.tree.Latest :=
  latest.adds ends.addsCopies fun _ _ found => (ends.grows.1.agrees found (ends.grows.2 _)).1

theorem Latest.counts {frame : FrameId} {arity : Nat} (latest : before.Latest)
    (counts : Counts frame arity before after) : after.Latest :=
  latest.adds counts.addsCopies fun id _ _ => (counts_sameNames counts).1.bound? id

end FrameTree

/-- In every run, frames bind names to the last bindings made for them. -/
theorem Enacts.latest {config : Config} {frame : FrameId} {steps : List Step} {before after : Store}
    (run : Enacts config frame steps before after) (latest : before.tree.Latest) :
    after.tree.Latest := by
  induction run with
  | done => exact latest
  | bind binds _ ih =>
    obtain ⟨_, _, _, _, bound⟩ := binds.bound
    exact ih (latest.bind bound)
  | count counts _ ih => exact ih (latest.counts counts)
  | block opened _ _ _ inside rest => exact rest (inside (latest.enter opened))
  | visit _ begins _ ends _ follows rest => exact rest ((follows (latest.effect begins.effect)).ends ends)

namespace FrameTree

variable {tree before after : FrameTree} {id inner outer : FrameId} {ids : List FrameId}
  {name : Symbol}

/-! ### Hiding -/

/-- A binding hides another one of the same name from a frame: it stands nearer around the frame, or it
was made later in the same frame. -/
def Hides (tree : FrameTree) (hider origin : BindingId) (id : FrameId) : Prop :=
  ∃ name nearer outer, tree.Entry hider name nearer none ∧ tree.Entry origin name outer none ∧
    tree.Around nearer id ∧ (tree.Around outer nearer ∨ nearer = outer ∧ origin < hider)

/-- What the first frame around a frame that binds a name binds it to is hidden by nothing. -/
theorem Latest.not_hides (latest : tree.Latest) (sound : tree.Sound) {front rest : List FrameId}
    {first : FrameId} {hider origin : BindingId}
    (path : tree.Path id (id :: (front ++ first :: rest)))
    (silent : ∀ other ∈ front, tree.bound? other name = none)
    (bound : tree.bound? first name = some origin) : ¬ tree.Hides hider origin id := by
  rintro ⟨asked, nearer, outer, entry, original, ⟨ids, path', among⟩, hidden⟩
  obtain ⟨rfl, rfl, _⟩ := (sound.locals _ _ _ bound).unique original
  obtain ⟨last, bound', le⟩ := latest _ _ _ entry
  cases path.unique path'
  -- The binding that hides would stand at the first frame or further out.
  rcases List.mem_append.mp among with inside | outside
  · rw [silent nearer inside] at bound'
    cases bound'
  rcases List.mem_cons.mp outside with rfl | outside
  · cases bound.symm.trans bound'
    rcases hidden with around | ⟨_, later⟩
    · exact absurd (around.lt sound.ordered) (Nat.lt_irrefl _)
    · exact absurd le (Nat.not_le.mpr later)
  · have onward : tree.Path outer (outer :: rest) := by
      rw [← List.cons_append] at path
      exact path.suffix
    have below := onward.lt_of_outer sound.ordered outside
    rcases hidden with around | ⟨rfl, _⟩
    · exact absurd (around.lt sound.ordered) (Nat.lt_asymm below)
    · exact absurd below (Nat.lt_irrefl _)

/-- A search that fails has asked every frame in vain. -/
theorem search_none {α : Type} {ask : FrameId → Frame → Option α} {lineage : Lineage}
    (failed : lineage.search ask = none) : ∀ entry ∈ lineage, ask entry.1 entry.2 = none := by
  induction lineage with
  | nil => simp
  | cons entry lineage ih =>
    obtain ⟨id, frame⟩ := entry
    rw [Lineage.search] at failed
    cases answer : ask id frame with
    | some target => simp [answer] at failed
    | none =>
      rw [answer, Option.map_eq_none_iff] at failed
      exact List.forall_mem_cons.mpr ⟨answer, ih failed⟩

/-- From inside of a frame that has bound a name, the search ends at the first frame that binds it. -/
theorem Latest.findOrigin (latest : tree.Latest) (sound : tree.Sound) {origin : BindingId}
    (original : tree.Entry origin name outer none) (path : tree.Path id ids) (member : outer ∈ ids) :
    ∃ lineage found front first rest, tree.lineage id = some lineage ∧
      lineage.findOrigin name = some found ∧ ids = front ++ first :: rest ∧
      (∀ other ∈ front, tree.bound? other name = none) ∧
      tree.bound? first name = some found.target := by
  obtain ⟨lineage, climbed⟩ := lineage_of_path sound.ordered path
  obtain ⟨path', frames⟩ := lineage_some climbed
  obtain ⟨last, bound, _⟩ := latest _ _ _ original
  have asks (other : FrameId) :
      (tree.frame? other).bind (Frame.binding? · false name) = tree.bound? other name := by
    cases held : tree.frame? other <;> simp [bound?, held, Frame.binding?]
  cases searched : lineage.findOrigin name with
  | none =>
    -- The frame of the origin would not have been asked in vain.
    rw [path.unique path'] at member
    obtain ⟨entry, listed, rfl⟩ := List.mem_map.mp member
    have failed := search_none searched entry listed
    rw [← asks, frames entry listed, Option.bind_some, failed] at bound
    cases bound
  | some found =>
    obtain ⟨front, first, rest, split, silent, answers, _⟩ := search_some frames searched
    refine ⟨lineage, found, front, first, rest, climbed, searched, (path.unique path').trans split, ?_, ?_⟩
    · exact fun other among => (asks other).symm.trans (silent other among)
    · exact (asks first).symm.trans answers

/-- From inside of a frame that has bound a name, the search finds a binding that nothing hides. So it
finds a given one exactly if nothing hides that one. -/
theorem Latest.findOrigin_iff (latest : tree.Latest) (sound : tree.Sound) {origin : BindingId}
    (original : tree.Entry origin name outer none) (around : tree.Around outer id)
    (unbound : tree.bound? id name = none) :
    ∃ lineage found nearest, tree.lineage id = some lineage ∧
      lineage.findOrigin name = some found ∧ tree.Entry found.target name nearest none ∧
      tree.Around nearest id ∧ (∀ hider, ¬ tree.Hides hider found.target id) ∧
      (found.target = origin ↔ ∀ hider, ¬ tree.Hides hider origin id) := by
  obtain ⟨ids, path, member⟩ := around
  obtain ⟨lineage, found, front, first, rest, climbed, searched, split, silent, bound⟩ :=
    latest.findOrigin sound original path (List.mem_cons_of_mem _ member)
  have entry := sound.locals _ _ _ bound
  -- The frame itself does not bind the name, so the search goes on outside of it.
  obtain ⟨front, rfl⟩ : ∃ others, front = id :: others := by
    cases front with
    | nil =>
      cases split
      rw [unbound] at bound
      cases bound
    | cons other others => exact ⟨others, by rw [(List.cons.inj split).1]⟩
  rw [List.cons_append, List.cons.injEq] at split
  obtain ⟨_, rfl⟩ := split
  have nearest : tree.Around first id := ⟨_, path, by simp⟩
  have clear (hider : BindingId) : ¬ tree.Hides hider found.target id :=
    latest.not_hides sound path (fun other among => silent other (by simp [among])) bound
  refine ⟨lineage, found, first, climbed, searched, entry, nearest, clear, ?_, fun unhidden => ?_⟩
  · rintro rfl
    exact clear
  · by_contra differs
    -- What was found hides the origin.
    refine unhidden found.target ⟨name, first, outer, entry, original, nearest, ?_⟩
    obtain ⟨last, bound', le⟩ := latest _ _ _ original
    rcases List.mem_append.mp member with inside | outside
    · rw [silent outer (by simp [inside])] at bound'
      cases bound'
    rcases List.mem_cons.mp outside with rfl | outside
    · cases bound.symm.trans bound'
      exact .inr ⟨rfl, Nat.lt_of_le_of_ne le (Ne.symm differs)⟩
    · rw [← List.cons_append] at path
      exact .inl ⟨rest, path.suffix, outside⟩

/-! ### Copies are made where their origins are not hidden -/

/-- Whatever hides the origin of a copy from the function that holds it was made after the copy, unless
a function on the way to the origin has taken the copies of another one along. -/
def Timely (taken : FrameId → FrameId → Prop) (tree : FrameTree) : Prop :=
  ∀ id name copy, tree.copy? id name = some copy →
    ∀ holders origin, tree.Trail copy holders origin → ∀ hider, tree.Hides hider origin id →
      copy < hider ∨ ∃ inner ∈ holders, ∃ outer ∈ holders, taken inner outer

theorem timely_initial (taken : FrameId → FrameId → Prop) : FrameTree.initial.Timely taken := by
  intro id name copy held
  cases id <;> cases held

variable {taken : FrameId → FrameId → Prop} {scope : Scope} {frame : FrameId}

/-- An old binding hid another one before. -/
theorem Hides.back {hider origin : BindingId} {held : Frame} (hides : after.Hides hider origin id)
    (grows : before.Grows after) (ordered : before.Ordered) (found : before.frame? id = some held)
    (early : hider < before.bindings.size) (early' : origin < before.bindings.size) :
    before.Hides hider origin id := by
  obtain ⟨asked, nearer, outer, entry, original, around, hidden⟩ := hides
  have around := around.back grows ordered found
  obtain ⟨ids, path, member⟩ := around
  obtain ⟨_, found'⟩ := path.mem_frame (List.mem_cons_of_mem _ member)
  refine ⟨asked, nearer, outer, entry.back_of_lt grows early, original.back_of_lt grows early',
    ⟨ids, path, member⟩, ?_⟩
  exact hidden.imp_left fun further => further.back grows ordered found'

/-- What a name means before the parameters of a function is not hidden from the function. -/
theorem Latest.not_hides_of_around (latest : tree.Latest) (sound : tree.Sound)
    {others : List FrameId} {hider origin : BindingId} (path : tree.Path id (id :: others))
    (means : tree.around id others name = some (.binding origin)) :
    ¬ tree.Hides hider origin id := by
  have means' : tree.meaning others name = some (.binding origin) := by
    rw [FrameTree.around] at means
    cases self : tree.self? id name <;> simp_all
  obtain ⟨front, first, rest, rfl, silent, bound⟩ := meaning_binding means'
  refine latest.not_hides sound path (fun other among => ?_) bound
  have quiet := silent other among
  simp only [own?, Option.orElse_eq_orElse, Option.orElse_eq_or, Option.or_eq_none_iff,
    Option.map_eq_none_iff] at quiet
  exact quiet.1

/-- What follows a frame on a path. -/
theorem Path.after_eq {others front : List FrameId} {other : FrameId} (path : tree.Path id ids)
    (ordered : tree.Ordered) (split : ids = front ++ other :: others) :
    (ids.dropWhile (· != other)).tail = others := by
  have distinct := List.nodup_append.mp (split ▸ path.nodup ordered)
  have apart : ∀ first ∈ front, (first != other) = true := fun first among => by
    simpa using distinct.2.2 first among other (List.mem_cons_self ..)
  rw [split, List.dropWhile_append_of_pos apart, List.dropWhile_cons_of_neg (by simp), List.tail_cons]

/-- A copy that is held on the current path can be traced: nothing hides its origin, unless copies have
been taken along on the way to it. -/
theorem Latest.taken_of_hides (latest : tree.Latest) (sound : tree.Sound)
    (live : tree.Live taken ids) (path : tree.Path frame ids) (member : id ∈ ids)
    {copy origin hider : BindingId} {holders : List FrameId} (held : tree.copy? id name = some copy)
    (trail : tree.Trail copy holders origin) (hides : tree.Hides hider origin id) :
    ∃ inner ∈ holders, ∃ outer ∈ holders, taken inner outer := by
  obtain ⟨front, others, split⟩ := List.append_of_mem member
  let around (other : FrameId) := tree.around other (ids.dropWhile (· != other)).tail name
  have arounds (front : List FrameId) (other : FrameId) (others : List FrameId)
      (split : ids = front ++ other :: others) (_ : tree.isFunction other = true) :
      around other = tree.around other others name := by
    simp only [around, path.after_eq sound.ordered split]
  obtain ⟨holders', origin', trail', _, chain, last, ends, origins⟩ :=
    live.trail sound arounds split held
  obtain ⟨rfl, rfl⟩ := trail.unique trail'
  by_contra none_
  -- Otherwise the name means the same before all functions on the way, namely the origin.
  have same : (id :: holders').IsChain fun inner outer => around inner = around outer :=
    chain.imp_of_mem_imp fun inner outer among among' link =>
      link.resolve_right fun taken => none_ ⟨inner, among, outer, among', taken⟩
  have means := (eq_of_isChain same ends).trans origins
  rw [arounds front id others split (sound.captures _ _ _ held).1] at means
  exact latest.not_hides_of_around sound (split ▸ path).suffix means hides

/-- While a tree grows, copies are added on the current path only. -/
theorem Timely.step (timely : before.Timely taken) (sound : before.Sound) (grows : before.Grows after)
    (latest : after.Latest) (tracks : Tracks taken scope frame ids after)
    (off : ∀ id, id ∉ ids → after.captured id = before.captured id) : after.Timely taken := by
  intro id name copy held holders origin trail hider hides
  by_cases old : before.copy? id name = some copy
  · obtain ⟨_, _, entry⟩ := sound.captures _ _ _ old
    obtain ⟨holders', origin', _, trail', original, _⟩ := Trail.exists_of_entry sound entry
    obtain ⟨rfl, rfl⟩ := trail.unique (trail'.keeps grows.bindings)
    by_cases early : hider < before.bindings.size
    · obtain ⟨_, found⟩ := frame_of_copy? old
      exact timely _ _ _ old _ _ trail' hider
        (hides.back grows sound.ordered found early original.lt)
    -- What is new was made after all old copies.
    · exact .inl (Nat.lt_of_lt_of_le entry.lt (Nat.not_lt.mp early))
  · have here : id ∈ ids := by
      by_contra away
      rw [copy?_congr (off id away)] at held
      exact old held
    exact .inr (latest.taken_of_hides tracks.sound tracks.live tracks.path here held trail hides)

end FrameTree

/-- Along a run, whatever hides the origin of a copy is made after the copy, unless copies are taken
along. -/
theorem Tracked.timely {config : Config} {final : FrameTree} {root : Expr} {scope : Scope}
    {frame : FrameId} {steps : List Step} {before after : Store}
    (tracked : Tracked config final root scope frame steps before after)
    (latest : before.tree.Latest) (timely : before.tree.Timely (root.Crosses final)) :
    after.tree.Timely (root.Crosses final) := by
  induction tracked with
  | done => exact timely
  | bind holds binds rest ih =>
    obtain ⟨ids, tracks⟩ := holds
    obtain ⟨_, bound⟩ := rest.start
    obtain ⟨_, _, _, _, binding⟩ := binds.bound
    have captured := (FrameTree.bind_views binding).2.1
    have latest := latest.bind binding
    exact ih latest (timely.step tracks.sound binds.grows.1 latest bound fun id _ => captured id)
  | count holds counts rest ih =>
    obtain ⟨ids, tracks⟩ := holds
    obtain ⟨_, counted⟩ := rest.start
    cases counted.path.unique (tracks.path.grows counts.grows.1)
    have latest := latest.counts counts
    exact ih latest (timely.step tracks.sound counts.grows.1 latest counted fun id _ =>
      (FrameTree.counts_sameNames counts).2 id)
  | block holds opened _ inside _ within rest =>
    obtain ⟨ids, tracks⟩ := holds
    obtain ⟨others, entered⟩ := inside.start
    have grows := (FrameTree.enter_grows opened).1
    have latest := latest.enter opened
    -- The new frame is on the path, and all others hold what they held.
    obtain ⟨_, rfl⟩ := entered.path.head
    have started := timely.step tracks.sound grows latest entered fun id off =>
      ((FrameTree.enter_views opened).1 id (by simp_all)).2.1
    exact rest (inside.enacts.latest latest) (within latest started)
  | visit holds _ _ begins follows ends rest followed remains =>
    obtain ⟨ids, tracks⟩ := holds
    obtain ⟨others, begun⟩ := follows.start
    obtain ⟨_, ended⟩ := rest.start
    have effect := begins.effect
    have grows := effect.grows.1
    have latest := latest.effect effect
    cases begun.path.unique (tracks.path.grows grows)
    have first := followed latest (timely.step tracks.sound grows latest begun fun id off =>
      effect.captured_of_off tracks.sound tracks.path off)
    have latest := follows.enacts.latest latest
    have latest' := latest.ends ends
    have sound := follows.enacts.sound begun.path begun.sound
    exact remains latest' (first.step sound ends.grows.1 latest' ended fun id _ => ends.captured id)

/-! ### Names that are bound later -/

/-- Whether the names of a frame are bound one after the other, with forms in between. -/
def FrameKind.isSequential : FrameKind → Bool
  | lets | loop => true
  | _ => false

/-- Names are bound before anything else is done. -/
def BindsFirst (steps : List Step) : Prop :=
  steps.Pairwise fun earlier later => later.isBind = true → earlier.isBind = true

theorem bindsFirst_append {first second : List Step} (binds : ∀ step ∈ first, step.isBind = true)
    (others : ∀ step ∈ second, step.isBind = false) : BindsFirst (first ++ second) := by
  refine List.pairwise_append.mpr ⟨?_, ?_, fun earlier among _ _ _ => binds earlier among⟩
  · exact List.pairwise_of_forall_mem_list fun earlier among _ _ _ => binds earlier among
  · refine List.pairwise_of_forall_mem_list fun _ _ later among bind => ?_
    rw [others later among] at bind
    cases bind

/-- A script that opens its frames for the names that it binds first, or for `let*` or `loop*`. -/
def Tidy (steps : List Step) : Prop :=
  ∀ opening known script, .block opening known script ∈ steps →
    (opening.kind.isSequential = true ∨ BindsFirst script) ∧ ∀ step ∈ script, step.isBlock = false

theorem Node.tidy_script (place : Place) (node : Node Expr) : Tidy (node.script place) := by
  intro opening known script member
  have plain (leaf : node.frameCount = 0) : False := by
    obtain ⟨_, _, same⟩ := exists_visit_of_mem_script leaf member
    cases same
  cases node with
  | function name uniqueName arities =>
    obtain ⟨arity, _, same⟩ := List.mem_map.mp member
    cases same
    exact ⟨.inr (bindsFirst_append (by simp [Step.isBind]) (by simp [Step.isBind])), arity.flat_block⟩
  | lets isLoop pairs body frame =>
    cases List.mem_singleton.mp member
    exact ⟨.inl (by cases isLoop <;> rfl), flat_pairs isLoop pairs frame _ body⟩
  | letfns pairs body frame =>
    cases List.mem_singleton.mp member
    refine ⟨.inr ?_, flat_letfns pairs place body⟩
    rw [List.append_assoc]
    apply bindsFirst_append
    · intro step among
      obtain ⟨_, _, rfl⟩ := List.mem_map.mp among
      rfl
    · intro step among
      rcases List.mem_append.mp among with among | among
      · obtain ⟨_, _, rfl⟩ := List.mem_map.mp among
        rfl
      · cases List.mem_singleton.mp among
        rfl
  | guarded body frame handler cleanup =>
    simp only [Node.script, List.cons_append, List.mem_cons, List.mem_append, List.mem_map,
      Option.mem_toList] at member
    rcases member with same | ⟨held, _, same⟩ | ⟨held, _, same⟩ <;> cases same <;>
      simp [BindsFirst, Step.isBind, Step.isBlock]
  | _ => exact (plain rfl).elim

namespace FrameTree

variable {before after : FrameTree} {id : FrameId}

/-- Whether the names of a frame of the tree are bound one after the other. -/
def isSequential (tree : FrameTree) (id : FrameId) : Bool :=
  (tree.frame? id).any fun frame => frame.kind.isSequential

theorem Grows.isSequential {frame : Frame} (grows : before.Grows after)
    (held : before.frame? id = some frame) : after.isSequential id = before.isSequential id := by
  obtain ⟨grown, held', same⟩ := grows.frames id frame held
  simp only [FrameTree.isSequential, held, held', Option.any_some, same.kind]

/-- A name that is bound in a frame after a copy was made inside of it belongs to `let*` or `loop*`. -/
def Prompt (tree : FrameTree) : Prop :=
  ∀ copy asked id source, tree.Entry copy asked id (some source) → ∀ binding name frame,
    tree.Entry binding name frame none → tree.Around frame id → copy < binding →
      tree.isSequential frame = true

theorem prompt_initial : FrameTree.initial.Prompt := by
  rintro copy asked id source ⟨held, found, _⟩
  cases found

/-- Names are bound in sequential frames or in the newest one, and copies come after the names that
are there. -/
theorem Prompt.step (prompt : before.Prompt) (sound : before.Sound) (nests : before.Nests)
    (grows : before.Grows after)
    (bound : ∀ binding name frame, after.Entry binding name frame none →
      before.bindings.size ≤ binding →
        before.isSequential frame = true ∨ frame + 1 = before.frames.size)
    (copied : ∀ copy name frame source, after.Entry copy name frame (some source) →
      before.bindings.size ≤ copy → ∀ binding asked outer, after.Entry binding asked outer none →
        binding ≤ copy) : after.Prompt := by
  intro copy asked id source entry binding name frame entry' around later
  by_cases early : copy < before.bindings.size
  · -- The frame of an old copy is an old one, and so are the frames around it.
    have entry := entry.back_of_lt grows early
    obtain ⟨_, found⟩ := frame_of_copy? (sound.copy?_of_mem (nests _ _ _ _ entry).1)
    have around := around.back grows sound.ordered found
    obtain ⟨ids, path, member⟩ := around
    obtain ⟨_, found'⟩ := path.mem_frame (List.mem_cons_of_mem _ member)
    rw [grows.isSequential found']
    by_cases early' : binding < before.bindings.size
    · exact prompt _ _ _ _ entry _ _ _ (entry'.back_of_lt grows early') ⟨ids, path, member⟩ later
    · refine (bound _ _ _ entry' (Nat.not_lt.mp early')).resolve_right fun newest => ?_
      -- Nothing stands inside of the newest frame.
      have below := path.lt_of_outer sound.ordered member
      exact absurd (newest ▸ frame?_lt found : id < frame + 1) (Nat.not_lt.mpr below)
  · exact absurd later (Nat.not_lt.mpr (copied _ _ _ _ entry (Nat.not_lt.mp early) _ _ _ entry'))

theorem Prompt.adds (prompt : before.Prompt) (sound : before.Sound) (nests : before.Nests)
    (adds : before.AddsCopies after) : after.Prompt := by
  refine prompt.step sound nests adds.grows ?_ ?_
  · intro binding name frame entry late
    exact absurd (adds.lt_of_original entry) (Nat.not_lt.mpr late)
  · intro copy name frame source _ late binding asked outer entry
    exact Nat.le_of_lt (Nat.lt_of_lt_of_le (adds.lt_of_original entry) late)

theorem Prompt.enter {opening : Opening} {parent inner : FrameId} (prompt : before.Prompt)
    (sound : before.Sound) (nests : before.Nests)
    (opened : before.enter opening parent = (inner, after)) : after.Prompt := by
  obtain ⟨_, bindings, _⟩ := enter_some opened
  refine prompt.step sound nests (enter_grows opened).1 ?_ ?_
  · exact fun _ _ _ entry late => absurd (bindings ▸ entry.lt) (Nat.not_lt.mpr late)
  · exact fun _ _ _ _ entry late => absurd (bindings ▸ entry.lt) (Nat.not_lt.mpr late)

theorem Prompt.bind {frame : FrameId} {name : Symbol} {initial : Option Expr} {needsBox : Bool}
    {binding : BindingId} (prompt : before.Prompt) (sound : before.Sound) (nests : before.Nests)
    (bound : before.bind frame name initial needsBox = some (binding, after))
    (ready : before.isSequential frame = true ∨ frame + 1 = before.frames.size) :
    after.Prompt := by
  obtain ⟨_, pushed, _⟩ := bind_some bound
  refine prompt.step sound nests (bind_grows bound).1 ?_ ?_
  · intro other asked holder entry late
    rcases (Entry.push_iff pushed).mp entry with ⟨_, _, rfl, _⟩ | old
    · exact ready
    · exact absurd old.lt (Nat.not_lt.mpr late)
  · intro copy asked holder source entry late
    rcases (Entry.push_iff pushed).mp entry with ⟨_, _, _, same⟩ | old
    · cases same
    · exact absurd old.lt (Nat.not_lt.mpr late)

end FrameTree

/-- If a script binds names in its frame, then the frame is sequential, or it is the newest one and the
names come first. -/
def Ready (tree : FrameTree) (frame : FrameId) (steps : List Step) : Prop :=
  ∀ step ∈ steps, step.isBind = true → tree.isSequential frame = true ∨
    BindsFirst steps ∧ frame + 1 = tree.frames.size

/-- A frame that is opened is the newest one. -/
theorem Ready.opened {before after : FrameTree} {opening : Opening} {parent inner : FrameId}
    {script : List Step} (opened : before.enter opening parent = (inner, after))
    (orderly : opening.kind.isSequential = true ∨ BindsFirst script) : Ready after inner script := by
  obtain ⟨next, _, size, held, _⟩ := FrameTree.enter_some opened
  intro step _ _
  rcases orderly with sequential | first
  · exact .inl (by simp [FrameTree.isSequential, held, sequential])
  · exact .inr ⟨first, by rw [next, size]⟩

/-- After another step, names are bound in sequential frames only. -/
theorem Ready.tail {before after : FrameTree} {frame : FrameId} {held : Frame} {first : Step}
    {steps : List Step} (ready : Ready before frame (first :: steps)) (other : first.isBind = false)
    (grows : before.Grows after) (found : before.frame? frame = some held) :
    Ready after frame steps := by
  intro step member bind
  rw [grows.isSequential found]
  refine .inl ((ready step (List.mem_cons_of_mem _ member) bind).resolve_right fun ordered => ?_)
  have also := (List.pairwise_cons.mp ordered.1).1 step member bind
  rw [other] at also
  cases also

theorem Tidy.tail {first : Step} {steps : List Step} (tidy : Tidy (first :: steps)) : Tidy steps :=
  fun opening known script member => tidy opening known script (List.mem_cons_of_mem _ member)

/-- A run of a tidy script binds names later than copies in sequential frames only. -/
theorem Enacts.prompt {config : Config} {frame : FrameId} {ids : List FrameId} {steps : List Step}
    {before after : Store} (run : Enacts config frame steps before after)
    (path : before.tree.Path frame ids) (sound : before.tree.Sound) (nests : before.tree.Nests)
    (tidy : Tidy steps) (ready : Ready before.tree frame steps) (prompt : before.tree.Prompt) :
    after.tree.Prompt := by
  induction run generalizing ids with
  | done => exact prompt
  | bind binds _ ih =>
    obtain ⟨_, _, _, _, bound⟩ := binds.bound
    have here := ready _ (List.mem_cons_self ..) rfl
    have grows := binds.grows.1
    obtain ⟨_, found⟩ := path.frame
    refine ih (path.grows grows) (binds.sound sound) (nests.bind bound) tidy.tail ?_
      (prompt.bind sound nests bound (here.imp_right And.right))
    intro step member _
    rw [grows.isSequential found, (FrameTree.bind_some bound).2.2.1]
    exact here.imp_right fun first => ⟨(List.pairwise_cons.mp first.1).2, first.2⟩
  | count counts _ ih =>
    have grows := counts.grows.1
    obtain ⟨_, found⟩ := path.frame
    exact ih (path.grows grows) (counts.sound sound)
      (nests.congr sound counts.addsCopies (FrameTree.counts_sameNames counts).2) tidy.tail
      (ready.tail rfl grows found) (prompt.adds sound nests counts.addsCopies)
  | block opened _ within _ inside rest =>
    have grows := (FrameTree.enter_grows opened).1
    have entered := path.opened opened
    have sound' := sound.enter path opened
    have nests' := nests.enter opened
    -- The script of the new frame opens no further ones.
    obtain ⟨orderly, flat⟩ := tidy _ _ _ (List.mem_cons_self ..)
    have followed := inside entered sound' nests'
      (fun opening known script member => absurd (flat _ member) (by simp [Step.isBlock]))
      (.opened opened orderly) (prompt.enter sound nests opened)
    obtain ⟨_, found⟩ := path.frame
    exact rest (path.grows (grows.trans within.grows)) (within.sound entered sound')
      (within.nests entered sound' nests') tidy.tail
      (ready.tail rfl (grows.trans within.grows) found) followed
  | visit _ begins within ends _ follows rest =>
    have effect := begins.effect
    have grows := effect.grows.1
    have begun := path.grows grows
    have sound' := effect.sound path sound
    have nests' := effect.nests path sound nests
    have followed := follows begun sound' nests' (Node.tidy_script _ _)
      (fun step member bind => by
        simp [Step.isBind_eq_false (Node.isOwn_script member)] at bind)
      (prompt.adds sound nests effect.addsCopies)
    have finished := within.sound begun sound'
    have nested := within.nests begun sound' nests'
    have along := (grows.trans within.grows).trans ends.grows.1
    obtain ⟨_, found⟩ := path.frame
    exact rest (path.grows along) (ends.sound finished) (ends.nests finished nested) tidy.tail
      (ready.tail rfl along found) (followed.adds finished nested ends.addsCopies)

/-! ### Finished trees -/

/-- A function of a finished tree that holds a copy under a name, and does not bind the name itself, has
an origin for it: a binding in a frame around it, which is no copy. The search for the name always finds
such a binding, the one that nothing hides, and so it finds the origin exactly if nothing hides the
origin. What hides it was bound by `let*` or `loop*` after the copy was made, unless one of the functions
that hold the copies on the way to the origin refers to another one of them from inside. -/
theorem Session.analyze_origins {σ : Type} {analyzer : Analyzer σ} {depth : Nat} {form : Form}
    {session : Session σ} {analysis : Analysis}
    (analyzed : ((Session.analyze analyzer depth form).run session).1 = .ok analysis)
    {id : FrameId} {frame : Frame} {name : Symbol} {copy : BindingId}
    (held : analysis.tree.frame? id = some frame) (copied : frame.captures.get? name = some copy)
    (unbound : frame.locals.get? name = none) :
    ∃ origin outer holders lineage found nearest, analysis.tree.origin? copy = some origin ∧
      analysis.tree.Trail copy holders origin ∧ analysis.tree.Entry origin name outer none ∧
      analysis.tree.Around outer id ∧ analysis.tree.lineage id = some lineage ∧
      lineage.findOrigin name = some found ∧
      analysis.tree.Entry found.target name nearest none ∧ analysis.tree.Around nearest id ∧
      (∀ hider, ¬ analysis.tree.Hides hider found.target id) ∧
      (found.target = origin ↔ ∀ hider, ¬ analysis.tree.Hides hider origin id) ∧
      ∀ hider, analysis.tree.Hides hider origin id →
        (copy < hider ∧ ∃ name outer, analysis.tree.Entry hider name outer none ∧
          analysis.tree.isSequential outer = true) ∨
        ∃ inner ∈ holders, ∃ outer ∈ holders, analysis.expr.Crosses analysis.tree inner outer := by
  obtain ⟨names, tracked, _⟩ := Session.analyze_tracked analyzed
  have run := tracked.enacts
  have sound := Session.analyze_sound analyzed
  have nests := run.nests (.root rfl rfl) FrameTree.sound_initial FrameTree.nests_initial
  have latest := run.latest FrameTree.latest_initial
  have timely := tracked.timely FrameTree.latest_initial (FrameTree.timely_initial _)
  have prompt := run.prompt (.root rfl rfl) FrameTree.sound_initial FrameTree.nests_initial
    (by simp [Tidy]) (by simp [Ready, Step.isBind]) FrameTree.prompt_initial
  have copied : analysis.tree.copy? id name = some copy := by simp [FrameTree.copy?, held, copied]
  have unbound : analysis.tree.bound? id name = none := by simp [FrameTree.bound?, held, unbound]
  obtain ⟨_, source, entry⟩ := sound.captures _ _ _ copied
  obtain ⟨holders, origin, _, trail, _⟩ := FrameTree.Trail.exists_of_entry sound entry
  obtain ⟨outer, original, around⟩ := nests.origin_around trail entry
  obtain ⟨lineage, found, nearest, climbed, searched, other, around', clear, right⟩ :=
    latest.findOrigin_iff sound original around unbound
  refine ⟨origin, outer, holders, lineage, found, nearest, sound.origin?_iff.mpr ⟨holders, trail⟩,
    trail, original, around, climbed, searched, other, around', clear, right, fun hider hides => ?_⟩
  refine (timely _ _ _ copied _ _ trail hider hides).imp_left fun later => ⟨later, ?_⟩
  obtain ⟨asked, holder, _, entry', _, around, _⟩ := hides
  exact ⟨asked, holder, entry', prompt _ _ _ _ entry _ _ _ entry' around later⟩

/-- `(let* [x nil f (fn* [] x) x nil] f)`. -/
def renewed : Form :=
  let symbol (name : String) : Form := .symbol (.simple name) .synthetic
  let list (items : List Form) : Form := .list items .synthetic
  let vector (items : List Form) : Form := .vector items .synthetic
  let nil : Form := .atom .nil .synthetic
  list [symbol "let*", vector [symbol "x", nil,
    symbol "f", list [symbol "fn*", vector [], symbol "x"], symbol "x", nil], symbol "f"]

/-- In `renewed` the function holds the copy 1 of the binding 0, and the search for its name finds the
binding 3. No function refers to another one. -/
theorem renewed_finds : ∃ analysis frame lineage,
    ((Session.analyze ⟨Namespaces.host, .standard⟩ 5 renewed).run (.start (.inside "user"))).1 =
      .ok analysis ∧
    analysis.tree.frame? 2 = some frame ∧ frame.isFunction = true ∧
    frame.captures.get? (.simple "x") = some 1 ∧ frame.locals.get? (.simple "x") = none ∧
    analysis.tree.origin? 1 = some 0 ∧
    analysis.tree.lineage 2 = some lineage ∧ lineage.findOrigin (.simple "x") = some ⟨3, [2]⟩ ∧
    (analysis.expr.walk.filterMap fun found => found.node.recursesTo?) = [] := by
  have computed : (((Session.analyze ⟨Namespaces.host, .standard⟩ 5 renewed).run
      (.start (.inside "user"))).1.toOption.bind fun analysis =>
        (analysis.tree.frame? 2).map fun frame =>
          (frame.isFunction, frame.captures.get? (.simple "x"), frame.locals.get? (.simple "x"),
            analysis.tree.origin? 1,
            (analysis.tree.lineage 2).bind (·.findOrigin (.simple "x")),
            analysis.expr.walk.filterMap fun found => found.node.recursesTo?)) =
      some (true, some 1, none, some 0, some ⟨3, [2]⟩, []) := by
    cbv
  simp only [Option.bind_eq_some_iff, Option.map_eq_some_iff, Prod.mk.injEq] at computed
  obtain ⟨analysis, result, frame, held, function, copied, unbound, origin, ⟨lineage, climbed, searched⟩,
    recursive⟩ := computed
  exact ⟨analysis, frame, lineage, ok_of_toOption result, held, function, copied, unbound, origin, climbed,
    searched, recursive⟩

/-- In `renewed` the function has captured the first `x`, but the search finds the second one, which was
bound after the function. -/
theorem renewed_origins : ∃ analysis frame,
    ((Session.analyze ⟨Namespaces.host, .standard⟩ 5 renewed).run (.start (.inside "user"))).1 =
      .ok analysis ∧
    analysis.tree.frame? 2 = some frame ∧ frame.captures.get? (.simple "x") = some 1 ∧
    frame.locals.get? (.simple "x") = none ∧ analysis.tree.origin? 1 = some 0 ∧
    (analysis.tree.lineage 2).bind (·.findOrigin (.simple "x")) = some ⟨3, [2]⟩ ∧
    ∃ hider, analysis.tree.Hides hider 0 2 ∧ 1 < hider := by
  obtain ⟨analysis, frame, lineage, analyzed, held, _, copied, unbound, origin, climbed, searched,
    recursive⟩ := renewed_finds
  obtain ⟨origin', _, _, lineage', found, _, same, _, _, _, climbed', searched', _, _, _, right,
    causes⟩ :=
    Session.analyze_origins analyzed held copied unbound
  cases origin.symm.trans same
  cases climbed.symm.trans climbed'
  cases searched.symm.trans searched'
  refine ⟨analysis, frame, analyzed, held, copied, unbound, origin,
    Option.bind_eq_some_iff.mpr ⟨lineage, climbed, searched⟩, ?_⟩
  -- The two differ, so something hides the origin; and no function refers to another one.
  have hidden : ¬ ∀ hider, ¬ analysis.tree.Hides hider 0 2 := fun clear => by
    cases right.mpr clear
  rw [not_forall_not] at hidden
  obtain ⟨hider, hides⟩ := hidden
  refine ⟨hider, hides, ?_⟩
  rcases causes hider hides with ⟨later, _⟩ | ⟨_, _, _, _, scope, reference, member, self, _⟩
  · exact later
  · have among : reference ∈ analysis.expr.walk := by
      rw [← Expr.map_snd_scoped analysis.tree]
      exact List.mem_map.mpr ⟨_, member, rfl⟩
    have none_ := List.filterMap_eq_nil_iff.mp recursive reference among
    rw [none_] at self
    cases self

/-- So the search for a captured name need not find the origin of the capture. -/
theorem renewed_misses : ¬ ∀ analysis id frame name copy origin lineage found,
    ((Session.analyze ⟨Namespaces.host, .standard⟩ 5 renewed).run (.start (.inside "user"))).1 =
      .ok analysis →
    analysis.tree.frame? id = some frame → frame.isFunction = true →
    frame.captures.get? name = some copy → frame.locals.get? name = none →
    analysis.tree.origin? copy = some origin → analysis.tree.lineage id = some lineage →
    lineage.findOrigin name = some found → found.target = origin := by
  intro agrees
  obtain ⟨analysis, frame, lineage, analyzed, held, function, copied, unbound, origin, climbed, searched,
    _⟩ := renewed_finds
  cases agrees analysis 2 frame _ 1 0 lineage _ analyzed held function copied unbound origin climbed
    searched

end LispScope
