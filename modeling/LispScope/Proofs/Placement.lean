import LispScope.Proofs.Construction
import LispScope.Proofs.Transfer

/-!
# What differs only in its place

Two expressions *match* if they are the same but for their spans. Two trees match if their frames are
the same and their bindings are, but for the initial values, which match. Since spans are nothing
that an operation on a tree looks at, every operation does the same to matching trees.
-/
namespace LispScope

/-! ### Expressions -/

/-- The same arity with another body. -/
def Arity.mapBody (f : α → β) (arity : Arity α) : Arity β :=
  ⟨arity.params, arity.isVariadic, arity.frame, f arity.body⟩

def Handler.mapBody (f : α → β) (handler : Handler α) : Handler β :=
  ⟨handler.exceptionType, handler.binding, handler.frame, f handler.body⟩

def Chunk.mapExpr (f : α → β) : Chunk α → Chunk β
  | code text => code text
  | expr value => expr (f value)

/-- The same node over other subexpressions. -/
def Node.mapParts (f : α → β) : Node α → Node β
  | define var value => define var (value.map f)
  | varValue var => varValue var
  | varObject var => varObject var
  | literal value lifted => literal value lifted
  | vector items => vector (items.map f)
  | set items => set (items.map f)
  | map entries => map (entries.map (Prod.map f f))
  | localRef name binding boxed => localRef name binding boxed
  | function name uniqueName arities => function name uniqueName (arities.map (Arity.mapBody f))
  | call head args fast => call (f head) (args.map f) fast
  | recur args target => recur (args.map f) target
  | selfRef name frame => selfRef name frame
  | selfCall frame args crossed => selfCall frame (args.map f) crossed
  | lets isLoop pairs body frame => lets isLoop (pairs.map (Prod.map id f)) (f body) frame
  | letfns pairs body frame => letfns (pairs.map (Prod.map id f)) (f body) frame
  | sequence items => sequence (items.map f)
  | branch condition yes no => branch (f condition) (f yes) (no.map f)
  | throwing value => throwing (f value)
  | guarded body frame handler cleanup =>
    guarded (f body) frame (handler.map (Handler.mapBody f)) (cleanup.map f)
  | dispatch value shift mask branches fallback =>
    dispatch (f value) shift mask (branches.map (Prod.map id f)) (f fallback)
  | native chunks => native (chunks.map (Chunk.mapExpr f))

namespace Node

theorem mapParts_mapParts (f : α → β) (g : β → γ) (node : Node α) :
    (node.mapParts f).mapParts g = node.mapParts (g ∘ f) := by
  have pairs {κ : Type} : Prod.map id g ∘ Prod.map id f = Prod.map (id : κ → κ) (g ∘ f) := rfl
  have chunks : Chunk.mapExpr g ∘ Chunk.mapExpr f = Chunk.mapExpr (g ∘ f) := by
    funext chunk
    cases chunk <;> rfl
  cases node <;> simp only [mapParts, List.map_map, Option.map_map, pairs, chunks] <;> rfl

theorem children_mapParts (f : α → β) (node : Node α) :
    (node.mapParts f).children = node.children.map f := by
  cases node with
  | define var value => exact Option.toList_map
  | map entries => simp [mapParts, children, List.flatMap_map, List.map_flatMap]
  | native chunks =>
    simp only [mapParts, children, List.filterMap_map, List.map_filterMap]
    congr 1
    funext chunk
    cases chunk <;> rfl
  | branch condition yes no => cases no <;> rfl
  | guarded body frame handler cleanup => cases handler <;> cases cleanup <;> rfl
  | _ => simp [mapParts, children, Arity.mapBody, Function.comp_def]

theorem results_mapParts (f : α → β) (node : Node α) :
    (node.mapParts f).results = node.results.map f := by
  cases node with
  | sequence items => simp [mapParts, results, Option.toList_map]
  | branch condition yes no => cases no <;> rfl
  | guarded body frame handler cleanup => cases handler <;> rfl
  | dispatch value shift mask branches fallback => simp [mapParts, results, Function.comp_def]
  | _ => rfl

theorem localRef?_mapParts (f : α → β) (node : Node α) :
    (node.mapParts f).localRef? = node.localRef? := by
  cases node <;> rfl

end Node

/-- Expressions that are the same but for their spans: one node over pairs of matching
subexpressions makes up both. -/
inductive Expr.Matches : Expr → Expr → Prop
  | mk (node : Node (Expr × Expr)) (parts : ∀ pair ∈ node.children, Matches pair.1 pair.2)
      (position : Position) (span span' : Span) :
      Matches ⟨node.mapParts Prod.fst, position, span⟩ ⟨node.mapParts Prod.snd, position, span'⟩

/-- Matching expressions may evaluate to the same locals. -/
theorem Expr.Matches.resultLocals_eq {first second : Expr} (matching : Expr.Matches first second) :
    second.resultLocals = first.resultLocals := by
  induction matching with
  | mk node parts position span span' ih =>
    have same : (node.results.map Prod.snd).map Expr.resultLocals =
        (node.results.map Prod.fst).map Expr.resultLocals := by
      rw [List.map_map, List.map_map]
      exact List.map_congr_left fun pair member =>
        ih pair (Node.mem_children_of_mem_results member)
    rw [Expr.resultLocals_eq, Expr.resultLocals_eq, Node.localRef?_mapParts, Node.localRef?_mapParts,
      Node.results_mapParts, Node.results_mapParts, List.flatMap_def, List.flatMap_def, same]

/-- Two matching expressions. -/
structure Twin where
  first : Expr
  second : Expr
  matching : first.Matches second

/-- A node over twins makes up two matching expressions. -/
theorem Expr.Matches.of_twins (node : Node Twin) (position : Position) (span span' : Span) :
    Expr.Matches ⟨node.mapParts Twin.first, position, span⟩
      ⟨node.mapParts Twin.second, position, span'⟩ := by
  have built := Expr.Matches.mk (node.mapParts fun twin => (twin.first, twin.second)) ?_ position
    span span'
  · rwa [Node.mapParts_mapParts, Node.mapParts_mapParts] at built
  · intro pair member
    rw [Node.children_mapParts] at member
    obtain ⟨twin, _, rfl⟩ := List.mem_map.mp member
    exact twin.matching

theorem Node.mapParts_id (node : Node α) : node.mapParts id = node := by
  have chunks : (Chunk.mapExpr id : Chunk α → Chunk α) = id := by
    funext chunk
    cases chunk <;> rfl
  have arities : (Arity.mapBody id : Arity α → Arity α) = id := rfl
  have handlers : (Handler.mapBody id : Handler α → Handler α) = id := rfl
  cases node <;> simp [mapParts, chunks, arities, handlers]

theorem Expr.Matches.refl (expr : Expr) : expr.Matches expr := by
  induction expr using Expr.induction with
  | step expr ih =>
    obtain ⟨node, position, span⟩ := expr
    have built := Expr.Matches.mk (node.mapParts fun part => (part, part)) ?_ position span span
    · rw [Node.mapParts_mapParts, Node.mapParts_mapParts] at built
      change Expr.Matches ⟨node.mapParts id, position, span⟩ ⟨node.mapParts id, position, span⟩ at built
      rwa [Node.mapParts_id] at built
    · intro pair member
      rw [Node.children_mapParts] at member
      obtain ⟨part, among, rfl⟩ := List.mem_map.mp member
      exact ih part among

/-! ### Trees -/

/-- Bindings that are the same but for their initial values, which match. -/
structure Binding.Matches (first second : Binding) : Prop where
  same : second = { first with initial := second.initial }
  initial : Option.Rel Expr.Matches first.initial second.initial

theorem Binding.Matches.refl (binding : Binding) : binding.Matches binding := by
  refine ⟨rfl, ?_⟩
  cases binding.initial with
  | none => exact .none
  | some value => exact .some (.refl value)

theorem Binding.Matches.aliases_eq {first second : Binding} (matching : first.Matches second) :
    second.aliases = first.aliases := by
  have from_ : second.capturedFrom = first.capturedFrom := by rw [matching.same]
  rw [aliases, aliases, from_]
  cases first.capturedFrom with
  | some source => rfl
  | none =>
    generalize first.initial = value, second.initial = value', matching.initial = values
    cases values with
    | none => rfl
    | some held => exact held.resultLocals_eq

/-- Trees that are the same but for the initial values of their bindings, which match. -/
structure FrameTree.Matches (first second : FrameTree) : Prop where
  frames : second.frames = first.frames
  bindings : ∀ id, Option.Rel Binding.Matches (first.binding? id) (second.binding? id)

namespace FrameTree.Matches

variable {first second : FrameTree}

theorem refl (tree : FrameTree) : tree.Matches tree := by
  refine ⟨rfl, fun id => ?_⟩
  cases tree.binding? id with
  | none => exact .none
  | some held => exact .some (.refl held)

theorem bindings_size (matching : first.Matches second) :
    second.bindings.size = first.bindings.size :=
  size_eq_of_rel matching.bindings

theorem frame?_eq (matching : first.Matches second) (id : FrameId) :
    second.frame? id = first.frame? id := by
  rw [frame?, frame?, matching.frames]

theorem lineage_eq (matching : first.Matches second) (id : FrameId) :
    second.lineage id = first.lineage id := by
  have climbs (steps : Nat) (id : FrameId) : second.climb steps id = first.climb steps id := by
    induction steps generalizing id with
    | zero => rfl
    | succ steps ih =>
      rw [climb, climb, matching.frame?_eq]
      simp only [ih]
  rw [lineage, lineage, matching.frames, climbs]

theorem closestFunction_eq (matching : first.Matches second) (id : FrameId) :
    second.closestFunction id = first.closestFunction id := by
  rw [closestFunction, closestFunction, matching.lineage_eq]

theorem updateFrame (matching : first.Matches second) (id : FrameId) (change : Frame → Frame) :
    Option.Rel FrameTree.Matches (first.updateFrame id change) (second.updateFrame id change) := by
  rw [FrameTree.updateFrame, FrameTree.updateFrame, matching.frames]
  split
  · exact .some ⟨by simp, matching.bindings⟩
  · exact .none

theorem push {binding binding' : Binding} (matching : first.Matches second)
    (added : binding.Matches binding') :
    FrameTree.Matches { first with bindings := first.bindings.push binding }
      { second with bindings := second.bindings.push binding' } := by
  refine ⟨matching.frames, fun id => ?_⟩
  simp only [binding?, Array.getElem?_push, matching.bindings_size]
  split
  · exact .some added
  · exact matching.bindings id

theorem openFrame (matching : first.Matches second) (kind : FrameKind) (parent : FrameId) :
    Keyed FrameTree.Matches (first.openFrame kind parent) (second.openFrame kind parent) := by
  rw [FrameTree.openFrame, FrameTree.openFrame, matching.frames]
  exact .mk _ ⟨rfl, matching.bindings⟩

theorem bind {initial initial' : Option Expr} (matching : first.Matches second)
    (values : Option.Rel Expr.Matches initial initial') (frame : FrameId) (name : Symbol)
    (needsBox : Bool) :
    Option.Rel (Keyed FrameTree.Matches) (first.bind frame name initial needsBox)
      (second.bind frame name initial' needsBox) := by
  rw [FrameTree.bind, FrameTree.bind, matching.bindings_size]
  refine optionRel_bind (matching.updateFrame frame _) fun tree tree' trees => ?_
  exact .some (.mk _ (trees.push ⟨rfl, values⟩))

/-- The same copy, made in both or in none, and matching trees. -/
theorem copyInto (matching : first.Matches second) (name : Symbol) (source : BindingId)
    (frame : FrameId) :
    Option.Rel (Keyed (Keyed FrameTree.Matches)) (first.copyInto name source frame)
      (second.copyInto name source frame) := by
  rw [FrameTree.copyInto, FrameTree.copyInto, matching.frame?_eq, matching.bindings_size]
  refine optionRel_bind (optionRel_refl _) ?_
  rintro held _ rfl
  generalize held.captures.getOrInsert name first.bindings.size = result
  obtain ⟨copy, made, captures⟩ := result
  cases made with
  | false => exact .some (.mk _ (.mk _ matching))
  | true =>
    refine optionRel_bind (matching.updateFrame frame _) fun tree tree' trees => ?_
    exact .some (.mk _ (.mk _ (trees.push (.refl _))))

theorem copyIntoAll (matching : first.Matches second) (name : Symbol) (source : BindingId)
    (frames : List FrameId) :
    Option.Rel (Keyed (Keyed FrameTree.Matches)) (first.copyIntoAll name source frames)
      (second.copyIntoAll name source frames) := by
  induction frames generalizing first second with
  | nil => exact .some (.mk _ (.mk _ matching))
  | cons frame frames ih =>
    refine optionRel_bind (matching.copyInto name source frame) ?_
    rintro _ _ ⟨copy, ⟨made, trees⟩⟩
    refine optionRel_bind (ih trees) ?_
    rintro _ _ ⟨copies, ⟨more, trees⟩⟩
    exact .some (.mk _ (.mk _ trees))

theorem takeAlong (matching : first.Matches second) (target : FrameId)
    (captures : List (Symbol × BindingId)) :
    Option.Rel FrameTree.Matches (first.takeAlong target captures)
      (second.takeAlong target captures) := by
  induction captures generalizing first second with
  | nil => exact .some matching
  | cons entry captures ih =>
    refine optionRel_bind (matching.copyInto entry.1 entry.2 target) ?_
    rintro _ _ ⟨copy, ⟨made, trees⟩⟩
    exact ih trees

theorem captureSelf (matching : first.Matches second) (frame : FrameId) (found : Found FrameId) :
    Option.Rel FrameTree.Matches (first.captureSelf frame found)
      (second.captureSelf frame found) := by
  rw [FrameTree.captureSelf, FrameTree.captureSelf]
  split
  · exact .some matching
  · rw [matching.closestFunction_eq]
    refine optionRel_bind (optionRel_refl _) ?_
    rintro target _ rfl
    rw [matching.frame?_eq]
    refine optionRel_bind (optionRel_refl _) ?_
    rintro source _ rfl
    exact matching.takeAlong target source.captures.entries

/-- A boxed use spreads over the same bindings. -/
theorem spreadBoxedUse {bindings bindings' : Array Binding} (pending : List BindingId)
    (related : ∀ id : Nat, Option.Rel Binding.Matches bindings[id]? bindings'[id]?) :
    Option.Rel (fun marked marked' : Array Binding =>
        ∀ id : Nat, Option.Rel Binding.Matches marked[id]? marked'[id]?)
      (spreadBoxedUse bindings pending) (spreadBoxedUse bindings' pending) := by
  have size (bindings bindings' : Array Binding)
      (related : ∀ id : Nat, Option.Rel Binding.Matches bindings[id]? bindings'[id]?) :
      bindings'.size = bindings.size := size_eq_of_rel related
  have each {bindings bindings' : Array Binding}
      (related : ∀ id : Nat, Option.Rel Binding.Matches bindings[id]? bindings'[id]?) {id : Nat}
      (inRange : id < bindings.size) (inRange' : id < bindings'.size) :
      bindings[id].Matches bindings'[id] := by
    have here := related id
    rw [Array.getElem?_eq_getElem inRange, Array.getElem?_eq_getElem inRange'] at here
    cases here with
    | some held => exact held
  induction bindings, pending using LispScope.spreadBoxedUse.induct generalizing bindings' with
  | case1 bindings =>
    rw [LispScope.spreadBoxedUse, LispScope.spreadBoxedUse]
    exact .some related
  | case2 bindings next pending inRange boxed ih =>
    have inRange' : next < bindings'.size := size _ _ related ▸ inRange
    have boxed' : bindings'[next].hasBoxedUse = true := by
      rw [(each related inRange inRange').same, boxed]
    rw [LispScope.spreadBoxedUse, dif_pos inRange, if_pos boxed]
    rw [LispScope.spreadBoxedUse, dif_pos inRange', if_pos boxed']
    exact ih related
  | case3 bindings next pending inRange fresh marked =>
    rename_i ih
    have inRange' : next < bindings'.size := size _ _ related ▸ inRange
    have here := each related inRange inRange'
    have fresh' : ¬ bindings'[next].hasBoxedUse = true := by rw [here.same]; exact fresh
    have used : bindings[next].useBoxed.Matches bindings'[next].useBoxed :=
      ⟨by rw [Binding.useBoxed, here.same]; rfl, here.initial⟩
    rw [LispScope.spreadBoxedUse, dif_pos inRange, if_neg fresh]
    rw [LispScope.spreadBoxedUse, dif_pos inRange', if_neg fresh']
    dsimp only
    -- What a use is handed on to depends on the locals of the initial values, which are the same.
    rw [used.aliases_eq]
    apply ih
    intro id
    rw [Array.getElem?_set, Array.getElem?_set]
    split
    · exact .some used
    · exact related id
  | case4 bindings next pending outside =>
    have outside' : ¬ next < bindings'.size := size _ _ related ▸ outside
    rw [LispScope.spreadBoxedUse, dif_neg outside]
    rw [LispScope.spreadBoxedUse, dif_neg outside']
    exact .none

theorem noteUse (matching : first.Matches second) (id : BindingId) (boxed : Bool) :
    Option.Rel FrameTree.Matches (first.noteUse id boxed) (second.noteUse id boxed) := by
  rw [FrameTree.noteUse, FrameTree.noteUse, matching.bindings_size]
  cases boxed with
  | true =>
    refine optionRel_bind (spreadBoxedUse [id] matching.bindings) fun marked marked' related => ?_
    exact .some ⟨matching.frames, related⟩
  | false =>
    simp only [Bool.false_eq_true, if_false]
    split
    · refine .some ⟨matching.frames, fun other => ?_⟩
      have here := matching.bindings other
      simp only [binding?, Array.getElem?_modify] at here ⊢
      split
      · generalize first.bindings[other]? = held, second.bindings[other]? = held' at here
        cases here with
        | none => exact .none
        | some related => exact .some ⟨by rw [Binding.useUnboxed, related.same]; rfl, related.initial⟩
      · exact here
    · exact .none

theorem capture (matching : first.Matches second) (found : Found BindingId) :
    Option.Rel (Keyed FrameTree.Matches) (first.capture found) (second.capture found) := by
  refine optionRel_bind (matching.bindings found.target) fun source source' sources => ?_
  have named : source'.name = source.name := by rw [sources.same]
  rw [named]
  refine optionRel_bind (matching.copyIntoAll source.name found.target found.crossed) ?_
  rintro _ _ ⟨copies, ⟨made, trees⟩⟩
  cases made with
  | false => exact .some (.mk _ trees)
  | true =>
    refine optionRel_bind (trees.noteUse found.target true) fun tree tree' trees => ?_
    exact .some (.mk _ trees)

/-- Whether an initial value can be kept unboxed does not depend on places. -/
theorem isUnboxable {expr expr' : Expr} (matching : first.Matches second)
    (exprs : expr.Matches expr') : second.isUnboxable expr' = first.isUnboxable expr := by
  cases exprs with
  | mk node parts position span span' =>
    cases node with
    -- Only a reference asks the tree.
    | localRef name binding boxed =>
      have here := matching.bindings binding
      simp only [FrameTree.isUnboxable, Node.mapParts]
      generalize first.binding? binding = held, second.binding? binding = held' at here
      cases here with
      | none => rfl
      | some related => rw [Option.map_some, Option.map_some, related.same]
    | _ => rfl

theorem liftVar (matching : first.Matches second) (supply : NameSupply) (frame : FrameId)
    (name : Symbol) :
    Option.Rel (Keyed fun rest rest' => rest.1.Matches rest'.1 ∧ rest.2 = rest'.2)
      (first.liftVar supply frame name) (second.liftVar supply frame name) := by
  rw [FrameTree.liftVar, FrameTree.liftVar, matching.closestFunction_eq]
  refine optionRel_bind (optionRel_refl _) ?_
  rintro target _ rfl
  rw [matching.frame?_eq]
  refine optionRel_bind (optionRel_refl _) ?_
  rintro held _ rfl
  exact optionRel_bind (matching.updateFrame target _) fun _ _ trees => .some (.mk _ ⟨trees, rfl⟩)

theorem liftConstant (matching : first.Matches second) (supply : NameSupply) (frame : FrameId)
    (value : Datum) :
    Option.Rel (Keyed fun rest rest' => rest.1.Matches rest'.1 ∧ rest.2 = rest'.2)
      (first.liftConstant supply frame value) (second.liftConstant supply frame value) := by
  rw [FrameTree.liftConstant, FrameTree.liftConstant, matching.closestFunction_eq]
  refine optionRel_bind (optionRel_refl _) ?_
  rintro target _ rfl
  rw [matching.frame?_eq]
  refine optionRel_bind (optionRel_refl _) ?_
  rintro held _ rfl
  exact optionRel_bind (matching.updateFrame target _) fun _ _ trees => .some (.mk _ ⟨trees, rfl⟩)

end FrameTree.Matches

end LispScope
