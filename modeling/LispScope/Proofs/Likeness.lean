import LispScope.Proofs.Script
import Mathlib.Data.List.Forall2

/-!
# Results that are alike

Two analyses of the same form may differ in the numbers of generated names, if one of them began
with a used supply, and in what they keep boxed, if their options differ. A `Tolerance` says by how
much. What is alike up to a tolerance has the same shape, the same frames and bindings under the
same numbers, the same captures and the same entries in the same order.

The relation on nodes takes the relation on subexpressions as a parameter, so that the same cases
serve for expressions and for expressions over a tree.
-/
namespace LispScope

/-- In what two analyses of the same form may differ. -/
structure Tolerance where
  /-- By how much the numbers of generated names are greater in the second one. -/
  shift : Nat
  /-- Whether the second one may do without boxes that the first one has. -/
  unboxes : Bool

namespace Tolerance

/-- No difference at all. -/
def strict : Tolerance := ⟨0, false⟩

/-- A generated name and its counterpart: the same stem, the number moved on. -/
def Name (allow : Tolerance) (first second : String) : Prop :=
  ∃ (stem : String) (number : Nat), first = stem ++ "_" ++ toString number ∧
    second = stem ++ "_" ++ toString (number + allow.shift)

/-- A flag for boxes. The first analysis has it wherever the second one has it. -/
def Flag (allow : Tolerance) (first second : Bool) : Prop :=
  (second = true → first = true) ∧ (allow.unboxes = false → first = true → second = true)

variable {allow : Tolerance}

theorem Name.eq {first second : String} (names : allow.Name first second)
    (unmoved : allow.shift = 0) : second = first := by
  obtain ⟨stem, number, rfl, rfl⟩ := names
  rw [unmoved, Nat.add_zero]

theorem Flag.refl (flag : Bool) : allow.Flag flag flag := ⟨id, fun _ => id⟩

theorem Flag.eq {first second : Bool} (flags : allow.Flag first second)
    (exact_ : allow.unboxes = false) : second = first :=
  Bool.eq_iff_iff.mpr ⟨flags.1, flags.2 exact_⟩

/-- Flags that were alike, each set anew where something holds in its run. -/
theorem Flag.or {before before' now now' : Bool} {P Q : Prop} (flags : allow.Flag before before')
    (set : now = true ↔ before = true ∨ P) (set' : now' = true ↔ before' = true ∨ Q)
    (forth : Q → P) (back : allow.unboxes = false → P → Q) : allow.Flag now now' :=
  ⟨fun flag => set.mpr ((set'.mp flag).imp flags.1 forth),
    fun exact_ flag => set'.mpr ((set.mp flag).imp (flags.2 exact_) (back exact_))⟩

theorem Flag.not {first second : Bool} (flags : allow.Flag first second) :
    allow.Flag (!second) (!first) := by
  cases first <;> cases second <;> simp_all [Flag]

end Tolerance

/-! ### Entries -/

/-- The same key with related values. -/
inductive Keyed (R : α → β → Prop) : κ × α → κ × β → Prop
  | mk (key : κ) (related : R first second) : Keyed R (key, first) (key, second)

/-- Related keys and related values. -/
inductive Paired (R : α → β → Prop) : α × α → β × β → Prop
  | mk (keys : R key key') (values : R value value') : Paired R (key, value) (key', value')

/-- The same keys in the same order, with related values. -/
def Registry.Alike (R : α → β → Prop) (first : Registry κ α) (second : Registry κ β) : Prop :=
  List.Forall₂ (Keyed R) first.entries second.entries

inductive LiftedVar.Alike (allow : Tolerance) : LiftedVar → LiftedVar → Prop
  | mk (name : Symbol) (names : allow.Name first second) : Alike allow ⟨name, first⟩ ⟨name, second⟩

inductive LiftedConstant.Alike (allow : Tolerance) : LiftedConstant → LiftedConstant → Prop
  | mk (value : Datum) (names : allow.Name first second) :
      Alike allow ⟨value, first⟩ ⟨value, second⟩

/-! ### Nodes -/

inductive Arity.Alike (R : α → β → Prop) : Arity α → Arity β → Prop
  | mk (params : List BindingId) (isVariadic : Bool) (frame : FrameId) (bodies : R first second) :
      Alike R ⟨params, isVariadic, frame, first⟩ ⟨params, isVariadic, frame, second⟩

inductive Handler.Alike (R : α → β → Prop) : Handler α → Handler β → Prop
  | mk (exceptionType : Symbol) (binding : BindingId) (frame : FrameId) (bodies : R first second) :
      Alike R ⟨exceptionType, binding, frame, first⟩ ⟨exceptionType, binding, frame, second⟩

inductive Chunk.Alike (R : α → β → Prop) : Chunk α → Chunk β → Prop
  | code (text : String) : Alike R (.code text) (.code text)
  | expr (values : R first second) : Alike R (.expr first) (.expr second)

/-- Nodes that differ within a tolerance, over related subexpressions. A fast call is one that needs
no boxes, so its flag goes the other way. -/
inductive Node.Alike (allow : Tolerance) (R : α → β → Prop) : Node α → Node β → Prop
  | define (vars : LiftedVar.Alike allow var var') (values : Option.Rel R value value') :
      Alike allow R (.define var value) (.define var' value')
  | varValue (vars : LiftedVar.Alike allow var var') : Alike allow R (.varValue var) (.varValue var')
  | varObject (vars : LiftedVar.Alike allow var var') :
      Alike allow R (.varObject var) (.varObject var')
  | literal (value : Datum) (constants : Option.Rel (LiftedConstant.Alike allow) lifted lifted') :
      Alike allow R (.literal value lifted) (.literal value lifted')
  | vector (items : List.Forall₂ R exprs exprs') : Alike allow R (.vector exprs) (.vector exprs')
  | set (items : List.Forall₂ R exprs exprs') : Alike allow R (.set exprs) (.set exprs')
  | map (items : List.Forall₂ (Paired R) entries entries') :
      Alike allow R (.map entries) (.map entries')
  | localRef (name : Symbol) (binding : BindingId) (flags : allow.Flag boxed boxed') :
      Alike allow R (.localRef name binding boxed) (.localRef name binding boxed')
  | function (name : Option Symbol) (names : allow.Name uniqueName uniqueName')
      (bodies : List.Forall₂ (Arity.Alike R) arities arities') :
      Alike allow R (.function name uniqueName arities) (.function name uniqueName' arities')
  | call (heads : R head head') (items : List.Forall₂ R args args') (flags : allow.Flag fast' fast) :
      Alike allow R (.call head args fast) (.call head' args' fast')
  | recur (items : List.Forall₂ R args args') (target : RecurTarget) :
      Alike allow R (.recur args target) (.recur args' target)
  | selfRef (name : Symbol) (frame : FrameId) :
      Alike allow R (.selfRef name frame) (.selfRef name frame)
  | selfCall (frame : FrameId) (items : List.Forall₂ R args args') (crossed : List FrameId) :
      Alike allow R (.selfCall frame args crossed) (.selfCall frame args' crossed)
  | lets (isLoop : Bool) (initials : List.Forall₂ (Keyed R) pairs pairs') (bodies : R body body')
      (frame : FrameId) :
      Alike allow R (.lets isLoop pairs body frame) (.lets isLoop pairs' body' frame)
  | letfns (functions : List.Forall₂ (Keyed R) pairs pairs') (bodies : R body body')
      (frame : FrameId) : Alike allow R (.letfns pairs body frame) (.letfns pairs' body' frame)
  | sequence (items : List.Forall₂ R exprs exprs') :
      Alike allow R (.sequence exprs) (.sequence exprs')
  | branch (conditions : R condition condition') (yeses : R yes yes') (noes : Option.Rel R no no') :
      Alike allow R (.branch condition yes no) (.branch condition' yes' no')
  | throwing (values : R value value') : Alike allow R (.throwing value) (.throwing value')
  | guarded (bodies : R body body') (frame : FrameId)
      (handlers : Option.Rel (Handler.Alike R) handler handler')
      (cleanups : Option.Rel R cleanup cleanup') :
      Alike allow R (.guarded body frame handler cleanup) (.guarded body' frame handler' cleanup')
  | dispatch (values : R value value') (shift mask : Int64)
      (choices : List.Forall₂ (Keyed R) branches branches') (fallbacks : R fallback fallback') :
      Alike allow R (.dispatch value shift mask branches fallback)
        (.dispatch value' shift mask branches' fallback')
  | native (pieces : List.Forall₂ (Chunk.Alike R) chunks chunks') :
      Alike allow R (.native chunks) (.native chunks')

/-- Expressions that differ within a tolerance. -/
inductive Expr.Alike (allow : Tolerance) : Expr → Expr → Prop
  | mk (nodes : Node.Alike allow (Alike allow) first second) (position : Position) (span : Span) :
      Alike allow ⟨first, position, span⟩ ⟨second, position, span⟩

/-! ### Relations on parts -/

/-- What holds of the first of two related lists can be used to relate them otherwise. -/
theorem forall₂_of_mem {R S : α → β → Prop} {first : List α} {second : List β}
    (related : List.Forall₂ R first second)
    (step : ∀ item ∈ first, ∀ other, R item other → S item other) : List.Forall₂ S first second :=
  ((List.forall₂_and_left _ _).mpr ⟨step, related⟩).imp fun _ _ held => held.1 _ held.2

theorem eq_of_forall₂ {R : α → α → Prop} {first second : List α}
    (related : List.Forall₂ R first second) (same : ∀ item other, R item other → item = other) :
    first = second := by
  have equal := related.imp same
  rwa [List.forall₂_eq_eq_eq] at equal

theorem optionRel_of_mem {R S : α → β → Prop} {first : Option α} {second : Option β}
    (related : Option.Rel R first second)
    (step : ∀ item ∈ first, ∀ other, R item other → S item other) : Option.Rel S first second := by
  cases related with
  | some related => exact .some (step _ rfl _ related)
  | none => exact .none

theorem Keyed.imp {R S : α → β → Prop} {first : κ × α} {second : κ × β} (keyed : Keyed R first second)
    (step : ∀ other, R first.2 other → S first.2 other) : Keyed S first second := by
  cases keyed with
  | mk key related => exact .mk key (step _ related)

namespace Node.Alike

variable {allow : Tolerance} {R S : α → β → Prop} {first : Node α} {second : Node β}

/-- Nodes stay alike when their subexpressions are related otherwise. -/
theorem imp (alike : Node.Alike allow R first second)
    (step : ∀ child ∈ first.children, ∀ other, R child other → S child other) :
    Node.Alike allow S first second := by
  have keyed {κ : Type} {pairs : List (κ × α)} {pairs' : List (κ × β)}
      (related : List.Forall₂ (Keyed R) pairs pairs')
      (inside : ∀ child ∈ pairs.map Prod.snd, child ∈ first.children) :
      List.Forall₂ (Keyed S) pairs pairs' :=
    forall₂_of_mem related fun pair member _ held =>
      held.imp (step _ (inside _ (List.mem_map_of_mem member)))
  cases alike with
  | define vars values => exact .define vars (optionRel_of_mem values (by simpa [children] using step))
  | varValue vars => exact .varValue vars
  | varObject vars => exact .varObject vars
  | literal value constants => exact .literal value constants
  | vector items => exact .vector (forall₂_of_mem items step)
  | set items => exact .set (forall₂_of_mem items step)
  | map items =>
    refine .map (forall₂_of_mem items fun entry member other paired => ?_)
    cases paired with
    | mk keys values =>
      refine .mk (step _ ?_ _ keys) (step _ ?_ _ values) <;>
      exact List.mem_flatMap.mpr ⟨_, member, by simp⟩
  | localRef name binding flags => exact .localRef name binding flags
  | function name names bodies =>
    refine .function name names (forall₂_of_mem bodies fun arity member other held => ?_)
    cases held with
    | mk params isVariadic frame related =>
      exact .mk params isVariadic frame (step _ (List.mem_map_of_mem member) _ related)
  | call heads items flags =>
    exact .call (step _ (List.mem_cons_self ..) _ heads)
      (forall₂_of_mem items fun item member => step item (List.mem_cons_of_mem _ member)) flags
  | recur items target => exact .recur (forall₂_of_mem items step) target
  | selfRef name frame => exact .selfRef name frame
  | selfCall frame items crossed => exact .selfCall frame (forall₂_of_mem items step) crossed
  | lets isLoop initials bodies frame =>
    exact .lets isLoop (keyed initials fun _ => List.mem_append_left _)
      (step _ (List.mem_append_right _ (List.mem_singleton_self _)) _ bodies) frame
  | letfns functions bodies frame =>
    exact .letfns (keyed functions fun _ => List.mem_append_left _)
      (step _ (List.mem_append_right _ (List.mem_singleton_self _)) _ bodies) frame
  | sequence items => exact .sequence (forall₂_of_mem items step)
  | branch conditions yeses noes =>
    refine .branch (step _ ?_ _ conditions) (step _ ?_ _ yeses) (optionRel_of_mem noes ?_)
    · simp [children]
    · simp [children]
    · intro item member
      exact step item (by simp [children, Option.mem_def.mp member])
  | throwing values => exact .throwing (step _ (List.mem_singleton_self _) _ values)
  | guarded bodies frame handlers cleanups =>
    refine .guarded (step _ (by simp [children]) _ bodies) frame (optionRel_of_mem handlers ?_)
      (optionRel_of_mem cleanups ?_)
    · intro handler member other held
      cases held with
      | mk exceptionType binding frame related =>
        refine .mk exceptionType binding frame (step _ ?_ _ related)
        simp [children, Option.mem_def.mp member]
    · intro item member
      exact step item (by simp [children, Option.mem_def.mp member])
  | dispatch values shift mask choices fallbacks =>
    refine .dispatch (step _ (by simp [children]) _ values) shift mask (keyed choices ?_)
      (step _ (by simp [children]) _ fallbacks)
    intro child member
    exact List.mem_cons_of_mem _ (List.mem_append_left _ member)
  | native pieces =>
    refine .native (forall₂_of_mem pieces fun chunk member other held => ?_)
    cases held with
    | code text => exact .code text
    | expr related => exact .expr (step _ (List.mem_filterMap.mpr ⟨_, member, rfl⟩) _ related)

/-- Alike nodes refer to the same local, if they do. -/
theorem localRef?_eq (alike : Node.Alike allow R first second) :
    (second.localRef?.map fun ref => ref.2.1) = first.localRef?.map fun ref => ref.2.1 := by
  cases alike <;> rfl

/-- The subexpressions that give alike nodes their value are related. -/
theorem results (alike : Node.Alike allow R first second) :
    List.Forall₂ R first.results second.results := by
  have option {item : Option α} {item' : Option β} (related : Option.Rel R item item') :
      List.Forall₂ R item.toList item'.toList := by
    cases related with
    | some held => exact .cons held .nil
    | none => exact .nil
  cases alike with
  -- A sequence has the value of its last form.
  | sequence items =>
    refine option ?_
    have reversed := List.forall₂_reverse_iff.mpr items
    rw [← List.head?_reverse, ← List.head?_reverse]
    generalize List.reverse _ = ends at reversed
    generalize List.reverse _ = ends' at reversed
    cases reversed with
    | nil => exact .none
    | cons last _ => exact .some last
  | branch _ yeses noes => exact .cons yeses (option noes)
  | lets _ _ bodies _ => exact .cons bodies .nil
  | letfns _ bodies _ => exact .cons bodies .nil
  | guarded bodies _ handlers _ =>
    refine .cons bodies (option ?_)
    cases handlers with
    | some held =>
      cases held with
      | mk _ _ _ related => exact .some related
    | none => exact .none
  | dispatch _ _ _ choices fallbacks =>
    refine List.rel_append ?_ (.cons fallbacks .nil)
    rw [List.forall₂_map_left_iff, List.forall₂_map_right_iff]
    refine choices.imp fun _ _ held => ?_
    cases held with
    | mk _ related => exact related
  | _ => exact .nil

end Node.Alike

/-! ### Without tolerance -/

theorem optionRel_eq {R : α → α → Prop} {first second : Option α} (related : Option.Rel R first second)
    (same : ∀ item other, R item other → item = other) : first = second := by
  cases related with
  | some held => rw [same _ _ held]
  | none => rfl

theorem Keyed.eq {R : α → α → Prop} (same : ∀ item other, R item other → item = other)
    (pair pair' : κ × α) (held : Keyed R pair pair') : pair = pair' := by
  cases held with
  | mk key related => rw [same _ _ related]

theorem LiftedVar.Alike.eq (first second : LiftedVar) (alike : LiftedVar.Alike .strict first second) :
    first = second := by
  cases alike with
  | mk name names => rw [names.eq rfl]

theorem LiftedConstant.Alike.eq (first second : LiftedConstant)
    (alike : LiftedConstant.Alike .strict first second) : first = second := by
  cases alike with
  | mk value names => rw [names.eq rfl]

/-- Without tolerance, nodes over equal subexpressions are equal. -/
theorem Node.Alike.eq {first second : Node α} (alike : Node.Alike .strict Eq first second) :
    first = second := by
  have equal {items items' : List α} (related : List.Forall₂ Eq items items') : items = items' :=
    eq_of_forall₂ related fun _ _ same => same
  have keyed {κ : Type} {pairs pairs' : List (κ × α)} (related : List.Forall₂ (Keyed Eq) pairs pairs') :
      pairs = pairs' :=
    eq_of_forall₂ related (Keyed.eq fun _ _ same => same)
  have option {item item' : Option α} (related : Option.Rel Eq item item') : item = item' :=
    optionRel_eq related fun _ _ same => same
  cases alike with
  | define vars values => rw [vars.eq, option values]
  | varValue vars => rw [vars.eq]
  | varObject vars => rw [vars.eq]
  | literal value constants => rw [optionRel_eq constants LiftedConstant.Alike.eq]
  | vector items => rw [equal items]
  | set items => rw [equal items]
  | map items =>
    rw [eq_of_forall₂ items]
    rintro _ _ ⟨rfl, rfl⟩
    rfl
  | localRef name binding flags => rw [flags.eq rfl]
  | function name names bodies =>
    rw [names.eq rfl, eq_of_forall₂ bodies]
    rintro _ _ ⟨_, _, _, rfl⟩
    rfl
  | call heads items flags => rw [heads, equal items, flags.eq rfl]
  | recur items target => rw [equal items]
  | selfRef name frame => rfl
  | selfCall frame items crossed => rw [equal items]
  | lets isLoop initials bodies frame => rw [keyed initials, bodies]
  | letfns functions bodies frame => rw [keyed functions, bodies]
  | sequence items => rw [equal items]
  | branch conditions yeses noes => rw [conditions, yeses, option noes]
  | throwing values => rw [values]
  | guarded bodies frame handlers cleanups =>
    rw [bodies, option cleanups, optionRel_eq handlers]
    rintro _ _ ⟨_, _, _, rfl⟩
    rfl
  | dispatch values shift mask choices fallbacks => rw [values, keyed choices, fallbacks]
  | native pieces =>
    rw [eq_of_forall₂ pieces]
    rintro _ _ (_ | rfl) <;> rfl

/-- The locals that an expression may evaluate to are the one that it is and those of the results of
its node. -/
theorem Expr.resultLocals_eq (expr : Expr) :
    expr.resultLocals = (expr.node.localRef?.map fun ref => ref.2.1).toList ++
      expr.node.results.flatMap resultLocals := by
  rw [resultLocals]
  split
  next name binding boxed held => simp [held, Node.localRef?, Node.results]
  next other =>
    have none_ : expr.node.localRef? = none := by
      cases node : expr.node with
      | localRef name binding boxed => exact absurd node (other name binding boxed)
      | _ => rfl
    rw [none_, List.flatMap_subtype (g := resultLocals) (fun _ _ => rfl), List.unattach_attach]
    rfl

namespace Expr.Alike

variable {allow : Tolerance} {first second : Expr}

theorem eq (alike : Expr.Alike .strict first second) : first = second := by
  induction first using Expr.induction generalizing second with
  | step expr ih =>
    cases alike with
    | mk nodes position span =>
      have same := (nodes.imp fun child member other => @ih child member other).eq
      rw [same]

/-- Alike expressions may evaluate to the same locals. -/
theorem resultLocals_eq (alike : Expr.Alike allow first second) :
    second.resultLocals = first.resultLocals := by
  induction first using Expr.induction generalizing second with
  | step expr ih =>
    cases alike with
    | @mk node node' nodes position span =>
      have below := (nodes.imp fun child member other => @ih child member other).results
      have same : node.results.map Expr.resultLocals = node'.results.map Expr.resultLocals := by
        apply eq_of_forall₂ (R := Eq) _ fun _ _ same => same
        rw [List.forall₂_map_left_iff, List.forall₂_map_right_iff]
        exact below.imp fun _ _ same => same.symm
      rw [Expr.resultLocals_eq, Expr.resultLocals_eq, nodes.localRef?_eq, List.flatMap_def,
        List.flatMap_def, same]

end Expr.Alike

/-! ### Trees -/

inductive FnContext.Alike (allow : Tolerance) : FnContext → FnContext → Prop
  | mk {uniqueName : String} (context : FnContext)
      (names : allow.Name context.uniqueName uniqueName) :
      Alike allow context { context with uniqueName }

structure Frame.Alike (allow : Tolerance) (first second : Frame) : Prop where
  kind : first.kind = second.kind
  parent : first.parent = second.parent
  locals : first.locals = second.locals
  captures : first.captures = second.captures
  vars : Registry.Alike (LiftedVar.Alike allow) first.vars second.vars
  constants : Registry.Alike (LiftedConstant.Alike allow) first.constants second.constants
  function? : Option.Rel (FnContext.Alike allow) first.function? second.function?
  loopArity? : first.loopArity? = second.loopArity?

/-- Bindings that differ within a tolerance. An unboxed use is one that needs no box, so its flag
goes the other way. -/
structure Binding.Alike (allow : Tolerance) (first second : Binding) : Prop where
  name : first.name = second.name
  frame : first.frame = second.frame
  initial : Option.Rel (Expr.Alike allow) first.initial second.initial
  capturedFrom : first.capturedFrom = second.capturedFrom
  needsBox : allow.Flag first.needsBox second.needsBox
  hasBoxedUse : allow.Flag first.hasBoxedUse second.hasBoxedUse
  hasUnboxedUse : allow.Flag second.hasUnboxedUse first.hasUnboxedUse

/-- The same numbers of frames and bindings, which differ within a tolerance. -/
structure FrameTree.Alike (allow : Tolerance) (first second : FrameTree) : Prop where
  frames : ∀ id, Option.Rel (Frame.Alike allow) (first.frame? id) (second.frame? id)
  bindings : ∀ id, Option.Rel (Binding.Alike allow) (first.binding? id) (second.binding? id)

structure Analysis.Alike (allow : Tolerance) (first second : Analysis) : Prop where
  expr : Expr.Alike allow first.expr second.expr
  tree : FrameTree.Alike allow first.tree second.tree

/-- The same reason for having no result, or results that differ within a tolerance. -/
inductive Answers (allow : Tolerance) : Except Halt Analysis → Except Halt Analysis → Prop
  | error (halt : Halt) : Answers allow (.error halt) (.error halt)
  | ok (alike : Analysis.Alike allow first second) : Answers allow (.ok first) (.ok second)

variable {allow : Tolerance}

/-- Alike bindings take their value from the same locals. -/
theorem Binding.Alike.aliases_eq {first second : Binding} (alike : Binding.Alike allow first second) :
    second.aliases = first.aliases := by
  rw [aliases, aliases, ← alike.capturedFrom]
  cases first.capturedFrom with
  | some source => rfl
  | none =>
    generalize first.initial = initial, second.initial = initial', alike.initial = values
    cases values with
    | none => rfl
    | some held => exact held.resultLocals_eq

theorem FnContext.Alike.eq (first second : FnContext) (alike : FnContext.Alike .strict first second) :
    first = second := by
  cases alike with
  | mk context names => rw [names.eq rfl]

theorem Registry.Alike.eq {R : α → α → Prop} (same : ∀ item other, R item other → item = other)
    {first second : Registry κ α} (alike : Registry.Alike R first second) : first = second := by
  have entries := eq_of_forall₂ alike (Keyed.eq same)
  cases first
  cases second
  cases entries
  rfl

theorem Frame.Alike.eq (first second : Frame) (alike : Frame.Alike .strict first second) :
    first = second := by
  cases first
  cases second
  obtain ⟨rfl, rfl, rfl, rfl, vars, constants, contexts, rfl⟩ := alike
  cases optionRel_eq contexts FnContext.Alike.eq
  cases vars.eq LiftedVar.Alike.eq
  cases constants.eq LiftedConstant.Alike.eq
  rfl

theorem Binding.Alike.eq (first second : Binding) (alike : Binding.Alike .strict first second) :
    first = second := by
  cases first
  cases second
  obtain ⟨rfl, rfl, initial, rfl, needsBox, hasBoxedUse, hasUnboxedUse⟩ := alike
  cases optionRel_eq initial fun _ _ held => held.eq
  cases needsBox.eq rfl
  cases hasBoxedUse.eq rfl
  cases hasUnboxedUse.eq rfl
  rfl

/-- Arrays that are related under every number are equally long. -/
theorem size_eq_of_rel {R : α → β → Prop} {first : Array α} {second : Array β}
    (related : ∀ id : Nat, Option.Rel R first[id]? second[id]?) : second.size = first.size := by
  have inside (id : Nat) : id < first.size ↔ id < second.size := by
    have here := related id
    rw [← isSome_getElem? first id, ← isSome_getElem? second id]
    generalize first[id]? = item, second[id]? = item' at here
    cases here <;> simp
  apply Nat.le_antisymm
  · exact Nat.not_lt.mp fun below => Nat.lt_irrefl _ ((inside _).mpr below)
  · exact Nat.not_lt.mp fun below => Nat.lt_irrefl _ ((inside _).mp below)

namespace FrameTree.Alike

variable {first second : FrameTree}

theorem frames_size (alike : FrameTree.Alike allow first second) :
    second.frames.size = first.frames.size :=
  size_eq_of_rel alike.frames

theorem bindings_size (alike : FrameTree.Alike allow first second) :
    second.bindings.size = first.bindings.size :=
  size_eq_of_rel alike.bindings

theorem eq (alike : FrameTree.Alike .strict first second) : first = second := by
  have frames : first.frames = second.frames :=
    Array.ext_getElem? fun id => optionRel_eq (alike.frames id) Frame.Alike.eq
  have bindings : first.bindings = second.bindings :=
    Array.ext_getElem? fun id => optionRel_eq (alike.bindings id) Binding.Alike.eq
  cases first
  cases second
  cases frames
  cases bindings
  rfl

end FrameTree.Alike

theorem Answers.alike {first second : Except Halt Analysis} {analysis analysis' : Analysis}
    (answers : Answers allow first second) (analyzed : first = .ok analysis)
    (analyzed' : second = .ok analysis') : Analysis.Alike allow analysis analysis' := by
  subst analyzed analyzed'
  cases answers with
  | ok alike => exact alike

theorem Answers.eq {first second : Except Halt Analysis} (answers : Answers .strict first second) :
    first = second := by
  cases answers with
  | error halt => rfl
  | @ok analysis analysis' alike =>
    cases analysis
    cases analysis'
    obtain ⟨expr, tree⟩ := alike
    cases expr.eq
    cases tree.eq
    rfl

end LispScope
