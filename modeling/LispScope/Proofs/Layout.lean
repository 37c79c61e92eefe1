import LispScope.Host.Namespaces
import LispScope.Proofs.Enactment
import LispScope.Proofs.Nesting
import LispScope.Proofs.Occurrence
import Mathlib

/-!
# The layout of frames

Frames and bindings mirror the expression. Each function arity, `let*`, `loop*`, `letfn*`, `try`,
`catch` and `finally` has one frame, whose parent is the frame that the node with it stands in, and
each binder has one binding in its frame; there are no other frames but the root, and no other
bindings but copies. A copy is held by its function under its own name, and its source stands around
that function (`Session.analyze_layout`).

The number of the frame of a `finally` is not part of the expression. As frames are numbered in the
order in which they are opened, it comes right behind those of the body and of the handler.
-/
namespace LispScope

/-! ### Where nodes stand -/

/-- The number of frames that belong to a node. -/
def Node.frameCount : Node ε → Nat
  | function _ _ arities => arities.length
  | lets .. | letfns .. => 1
  | guarded _ _ handler cleanup => 1 + handler.toList.length + cleanup.toList.length
  | _ => 0

/-- The number of frames that belong to the nodes of an expression. -/
def Expr.frameCount (expr : Expr) : Nat := (expr.walk.map fun found => found.node.frameCount).sum

theorem Expr.frameCount_eq (expr : Expr) :
    expr.frameCount = expr.node.frameCount + (expr.node.children.map frameCount).sum := by
  have sum (exprs : List Expr) :
      ((exprs.flatMap walk).map fun found => found.node.frameCount).sum =
        (exprs.map frameCount).sum := by
    induction exprs with
    | nil => rfl
    | cons first rest ih =>
      rw [List.flatMap_cons, List.map_append, List.sum_append, ih, List.map_cons, List.sum_cons,
        frameCount]
  rw [frameCount, walk_eq, List.map_cons, List.sum_cons, sum, children]

/-- A frame, with the one around it and what it knows of its function or of its loop, or a binding,
with the frame that it belongs to. -/
inductive Item
  | frame (parent id : FrameId) (kind : FrameKind) (function? : Option FnContext)
    (loopArity? : Option Nat)
  | binding (owner : FrameId) (id : BindingId)
deriving DecidableEq

namespace Item

def frameId? : Item → Option FrameId
  | frame _ id .. => some id
  | binding .. => none

def bindingId? : Item → Option BindingId
  | frame .. => none
  | binding _ id => some id

/-- What an item says is so. The notes on functions are left out. -/
def Stands (tree : FrameTree) : Item → Prop
  | frame parent id kind function? loopArity? => ∃ held, tree.frame? id = some held ∧
      held.parent = some parent ∧ held.kind = kind ∧ held.outline? = function? ∧
        held.loopArity? = loopArity?
  | binding owner id => ∃ held, tree.binding? id = some held ∧ held.frame = owner ∧
      held.capturedFrom = none

end Item

namespace Node

/-- The frame of a `finally`: the first one behind those of the body and of the handler. -/
def cleanupFrame (inner : FrameId) (body : Expr) : Option (Handler Expr) → FrameId
  | none => inner + 1 + body.frameCount
  | some handler => handler.frame + 1 + handler.body.frameCount

/-- The frames in which the children of a node stand. -/
def places : Pass FrameId
  | _, function _ _ arities => arities.map fun arity => (arity.frame, arity.body)
  | _, lets _ pairs body inner | _, letfns pairs body inner =>
    pairs.map (fun pair => (inner, pair.2)) ++ [(inner, body)]
  | _, guarded body inner handler cleanup =>
    (inner, body) :: handler.toList.map (fun held => (held.frame, held.body)) ++
      cleanup.toList.map (cleanupFrame inner body handler, ·)
  | frame, node => node.children.map (frame, ·)

theorem places_complete : Pass.Complete places := by
  intro frame node
  cases node with
  | guarded body inner handler cleanup =>
    cases handler <;> cases cleanup <;> simp [places, children]
  | _ => simp [places, children, Function.comp_def]

/-- The frames and bindings that belong to a node in a frame. -/
def items (frame : FrameId) : Node Expr → List Item
  | function name uniqueName arities => arities.flatMap fun arity =>
    .frame frame arity.frame .function (some (arity.context name uniqueName)) none ::
      arity.params.map (.binding arity.frame)
  | lets isLoop pairs _ inner =>
    .frame frame inner (if isLoop then .loop else .lets) none
        (if isLoop then some pairs.length else none) ::
      pairs.map fun pair => .binding inner pair.1
  | letfns pairs _ inner =>
    .frame frame inner .letfns none none :: pairs.map fun pair => .binding inner pair.1
  | guarded body inner handler cleanup =>
    .frame frame inner .guarded none none ::
      handler.toList.flatMap (fun held =>
        [.frame frame held.frame .handler none none, .binding held.frame held.binding]) ++
      cleanup.toList.map fun _ =>
        .frame frame (cleanupFrame inner body handler) .cleanup none none
  | _ => []

/-- A node has no frame like the root, the frames of its arities know their functions, and those of
loops their names. -/
theorem known_of_mem_items {node : Node Expr} {frame parent id : FrameId} {kind : FrameKind}
    {function? : Option FnContext} {loopArity? : Option Nat}
    (member : .frame parent id kind function? loopArity? ∈ node.items frame) :
    kind ≠ .root ∧ (function?.isSome ↔ kind = .function) ∧ (loopArity?.isSome ↔ kind = .loop) := by
  cases node with
  | function name uniqueName arities =>
    simp only [items, List.mem_flatMap, List.mem_cons, List.mem_map] at member
    grind
  | lets isLoop pairs body inner => grind [items]
  | letfns pairs body inner => grind [items]
  | guarded body inner handler cleanup =>
    cases handler <;> cases cleanup <;> simp [items] at member <;> grind
  | _ => cases member

end Node

namespace Expr

/-- The nodes of an expression in a frame, with the frames in which they stand, in the order of the
walk. -/
def placesIn (frame : FrameId) (expr : Expr) : List (FrameId × Expr) :=
  Pass.nodes Node.places Node.places_complete frame expr

/-- The frames and bindings that belong to the nodes of an expression in a frame. -/
def items (frame : FrameId) (expr : Expr) : List Item :=
  (expr.placesIn frame).flatMap fun entry => entry.2.node.items entry.1

theorem items_eq (frame : FrameId) (expr : Expr) :
    expr.items frame = expr.node.items frame ++
      (Node.places frame expr.node).flatMap fun step => step.2.items step.1 := by
  rw [items, placesIn, Pass.nodes_eq, List.flatMap_cons, List.flatMap_assoc]
  rfl

end Expr

/-! ### What a script lays out -/

/-- The number of frames that a script opens. -/
def framesOf : List Step → Nat
  | [] => 0
  | .visit _ expr :: steps => expr.frameCount + framesOf steps
  | .bind .. :: steps | .count .. :: steps => framesOf steps
  | .block _ _ script :: steps => 1 + framesOf script + framesOf steps

/-- The frames and bindings of a script in a frame. A frame whose number the script does not tell
takes the next one. -/
def itemsOf (frame : FrameId) : FrameId → List Step → List Item
  | _, [] => []
  | next, .visit _ expr :: steps => expr.items frame ++ itemsOf frame (next + expr.frameCount) steps
  | next, .bind binding _ :: steps => .binding frame binding :: itemsOf frame next steps
  | next, .count .. :: steps => itemsOf frame next steps
  | next, .block opening known script :: steps =>
    .frame frame (known.getD next) opening.kind opening.function? (countedBy script) ::
      itemsOf (known.getD next) (known.getD next + 1) script ++
        itemsOf frame (known.getD next + 1 + framesOf script) steps

/-- The names that a script binds in its own frame. -/
def boundBy (steps : List Step) : List BindingId :=
  steps.filterMap fun
    | .bind binding _ => some binding
    | _ => none

/-- Whether a step opens a frame. -/
def Step.isBlock : Step → Bool
  | block .. => true
  | _ => false

/-- The order of visits and binds does not matter for what is laid out. -/
theorem itemsOf_flat {frame next : FrameId} {steps : List Step}
    (flat : ∀ step ∈ steps, step.isBlock = false) :
    (itemsOf frame next steps).Perm ((boundBy steps).map (.binding frame) ++
      (visited steps).flatMap (Expr.items frame)) := by
  induction steps generalizing next with
  | nil => simp [itemsOf, boundBy, visited]
  | cons step steps ih =>
    have flat' : ∀ other ∈ steps, other.isBlock = false :=
      fun other member => flat other (List.mem_cons_of_mem _ member)
    cases step with
    | block opening known script => cases flat _ (List.mem_cons_self ..)
    | bind binding how =>
      simp only [itemsOf, visited]
      exact (ih flat').cons _
    | count inner arity =>
      simp only [itemsOf, visited]
      exact ih flat'
    | visit place expr =>
      simp only [itemsOf, visited, List.flatMap_cons]
      exact ((ih flat').append_left _).trans (List.perm_append_comm_assoc ..)

theorem framesOf_flat {steps : List Step} (flat : ∀ step ∈ steps, step.isBlock = false) :
    framesOf steps = ((visited steps).map Expr.frameCount).sum := by
  induction steps with
  | nil => simp [framesOf, visited]
  | cons step steps ih =>
    have rest := ih fun other member => flat other (List.mem_cons_of_mem _ member)
    cases step with
    | block opening known script => cases flat _ (List.mem_cons_self ..)
    | bind binding how | count inner arity => simp [framesOf, visited, rest]
    | visit place expr => simp [framesOf, visited, rest]

@[simp] theorem boundBy_nil : boundBy [] = [] := rfl

@[simp] theorem boundBy_visit (place : Place) (expr : Expr) (steps : List Step) :
    boundBy (.visit place expr :: steps) = boundBy steps := rfl

@[simp] theorem boundBy_bind (binding : BindingId) (how : Introduction) (steps : List Step) :
    boundBy (.bind binding how :: steps) = binding :: boundBy steps := rfl

@[simp] theorem boundBy_append (first second : List Step) :
    boundBy (first ++ second) = boundBy first ++ boundBy second :=
  List.filterMap_append

@[simp] theorem boundBy_map_bind {γ : Type} (how : Introduction) (items : List γ)
    (pick : γ → BindingId) :
    boundBy (items.map fun item => .bind (pick item) how) = items.map pick := by
  induction items with
  | nil => rfl
  | cons item items ih => simp [ih]

@[simp] theorem boundBy_map_visit {γ : Type} (place : Place) (items : List γ) (pick : γ → Expr) :
    boundBy (items.map fun item => .visit place (pick item)) = [] := by
  simp [boundBy]

@[simp] theorem boundBy_countScript (isLoop : Bool) (frame : FrameId) (arity : Nat) :
    boundBy (countScript isLoop frame arity) = [] := by
  cases isLoop <;> rfl

theorem boundBy_pairs (isLoop : Bool) (pairs : List (BindingId × Expr)) :
    boundBy (pairScript isLoop pairs) = pairs.map Prod.fst := by
  induction pairs with
  | nil => rfl
  | cons pair pairs ih => simpa [pairScript] using ih

namespace Node

/-- A node without frames of its own visits its children and does nothing else. -/
theorem exists_visit_of_mem_script {node : Node Expr} {place : Place} {step : Step}
    (plain : node.frameCount = 0) (member : step ∈ node.script place) :
    ∃ there expr, step = .visit there expr := by
  have sequence (items : List Expr) (inside : step ∈ sequenceScript place items) :
      ∃ there expr, step = .visit there expr := by
    induction items using sequenceScript.induct with
    | case1 => cases inside
    | case2 last => exact ⟨_, _, List.mem_singleton.mp inside⟩
    | case3 first rest more ih =>
      obtain ⟨second, rest, rfl⟩ := List.exists_cons_of_ne_nil more
      rcases List.mem_cons.mp inside with rfl | inside
      · exact ⟨_, _, rfl⟩
      · exact ih inside
  cases node with
  | sequence items => exact sequence items member
  | function name uniqueName arities =>
    cases List.length_eq_zero_iff.mp plain
    cases member
  | recur args target =>
    cases target <;>
    · obtain ⟨expr, _, rfl⟩ := List.mem_map.mp member
      exact ⟨_, expr, rfl⟩
  | lets | letfns => cases plain
  | guarded body inner handler cleanup =>
    rw [frameCount] at plain
    omega
  | call | branch | dispatch =>
    simp only [script, List.mem_map, List.mem_cons, List.mem_append, Option.mem_toList,
      List.not_mem_nil, or_false] at member
    grind
  | _ =>
    obtain ⟨expr, _, rfl⟩ := List.mem_map.mp member
    exact ⟨_, expr, rfl⟩

end Node

/-! Inside of a block no further frame is opened by the script itself. -/

theorem Arity.flat_block (arity : Arity Expr) :
    ∀ step ∈ arity.params.map (.bind · .bare) ++ [.visit .functionBody arity.body],
      Step.isBlock step = false := by
  simp [Step.isBlock, or_imp, forall_and]

theorem flat_pairs (isLoop : Bool) (pairs : List (BindingId × Expr)) (inner : FrameId)
    (place : Place) (body : Expr) :
    ∀ step ∈ pairScript isLoop pairs ++ countScript isLoop inner pairs.length ++
      [.visit place body], step.isBlock = false := by
  simp only [pairScript, countScript, List.mem_append, List.mem_flatMap, List.mem_cons,
    List.not_mem_nil, or_false, List.mem_ite_nil_right]
  rintro step ((⟨_, _, rfl | rfl⟩ | ⟨_, rfl⟩) | rfl) <;> rfl

theorem flat_letfns (pairs : List (BindingId × Expr)) (place : Place) (body : Expr) :
    ∀ step ∈ pairs.map (fun pair => .bind pair.1 .bare) ++
      pairs.map (fun pair => .visit .operand pair.2) ++ [.visit place body],
      Step.isBlock step = false := by
  simp only [List.append_assoc, List.mem_append, List.mem_map, List.mem_singleton]
  rintro step (⟨_, _, rfl⟩ | ⟨_, _, rfl⟩ | rfl) <;> rfl

theorem Node.flat_script {node : Node Expr} (plain : node.frameCount = 0) (place : Place) :
    ∀ step ∈ node.script place, step.isBlock = false := by
  intro step member
  obtain ⟨_, _, rfl⟩ := exists_visit_of_mem_script plain member
  rfl

/-- A block around steps that open no frames, before others. -/
theorem itemsOf_block (frame : FrameId) {inner next : FrameId} {known : Option FrameId}
    (numbered : known.getD next = inner) (opening : Opening) {script steps : List Step}
    (flat : ∀ step ∈ script, step.isBlock = false) {others inside : List Item}
    (rest : (itemsOf frame (inner + 1 + ((visited script).map Expr.frameCount).sum) steps).Perm
      (others ++ inside)) :
    (itemsOf frame next (.block opening known script :: steps)).Perm
      ((.frame frame inner opening.kind opening.function? (countedBy script) ::
          (boundBy script).map (.binding inner) ++ others) ++
        ((visited script).flatMap (Expr.items inner) ++ inside)) := by
  subst numbered
  rw [itemsOf, framesOf_flat flat]
  refine (((itemsOf_flat flat).append rest).cons _).trans ?_
  simp only [List.append_assoc, List.cons_append]
  exact .cons _ (.append_left _ (List.perm_append_comm_assoc ..))

namespace Node

/-- A node without frames of its own lays out what its children do. -/
theorem itemsOf_plain {node : Node Expr} (plain : node.frameCount = 0) (frame next : FrameId)
    (place : Place) :
    (itemsOf frame next (node.script place)).Perm (node.children.flatMap (Expr.items frame)) := by
  have unbound : boundBy (node.script place) = [] := by
    refine List.filterMap_eq_nil_iff.mpr fun step member => ?_
    obtain ⟨_, _, rfl⟩ := exists_visit_of_mem_script plain member
    rfl
  simpa [unbound, visited_script] using itemsOf_flat (flat_script plain place)

theorem itemsOf_script (frame next : FrameId) (place : Place) (node : Node Expr) :
    (itemsOf frame next (node.script place)).Perm (node.items frame ++
      (places frame node).flatMap fun step => step.2.items step.1) := by
  have known (inner next : FrameId) : (some inner).getD next = inner := rfl
  have last {next : FrameId} : (itemsOf frame next []).Perm ([] ++ []) := by simp [itemsOf]
  cases node with
  | function name uniqueName arities =>
    simp only [script, items, places, List.flatMap_map]
    induction arities generalizing next with
    | nil => simp [itemsOf]
    | cons arity arities ih =>
      have block := itemsOf_block frame (known arity.frame next)
        (.function (arity.context name uniqueName)) arity.flat_block (ih _)
      simpa [Arity.block, visited, Opening.kind, Opening.function?] using block
  | lets isLoop pairs body inner =>
    have block := itemsOf_block frame (known inner next)
      (if isLoop then .loop else .lets)
      (flat_pairs isLoop pairs inner ⟨if isLoop then .tail else place.position, place.boxed⟩ body)
      last
    cases isLoop <;>
      simpa [script, items, places, visited, visited_pairs, boundBy_pairs, List.flatMap_map,
        Function.comp_def, Opening.kind, Opening.function?] using block
  | letfns pairs body inner =>
    have block := itemsOf_block frame (known inner next) .letfns
      (flat_letfns pairs place body) last
    simpa [script, items, places, visited, List.flatMap_map, Function.comp_def, Opening.kind,
      Opening.function?] using block
  | guarded body inner handler cleanup =>
    have visits (place : Place) (expr : Expr) :
        ∀ step ∈ [Step.visit place expr], step.isBlock = false := by simp [Step.isBlock]
    have handles (held : Handler Expr) : ∀ step ∈ [Step.bind held.binding .bare,
        .visit place held.body], step.isBlock = false := by simp [Step.isBlock]
    -- From the inside: the cleanup takes the number at which the blocks before it end.
    have cleans (next : FrameId) : (itemsOf frame next (cleanup.toList.map fun body =>
        .block .cleanup none [.visit .statement body])).Perm
          (cleanup.toList.map (fun _ => .frame frame next .cleanup none none) ++
            cleanup.toList.flatMap (Expr.items next)) := by
      cases cleanup with
      | none => exact last
      | some expr =>
        have block := itemsOf_block frame (show none.getD next = next from rfl) .cleanup
          (visits .statement expr) last
        simpa [visited, Opening.kind, Opening.function?] using block
    cases handler with
    | none =>
      have block := itemsOf_block frame (known inner next) .guarded (visits place body) (cleans _)
      simpa [script, items, places, cleanupFrame, visited, List.flatMap_map, Opening.kind,
        Opening.function?] using block
    | some held =>
      have caught (next : FrameId) :=
        itemsOf_block frame (known held.frame next) .handler (handles held) (cleans _)
      have block := itemsOf_block frame (known inner next) .guarded (visits place body) (caught _)
      simpa [script, items, places, cleanupFrame, visited, Handler.block, List.flatMap_map,
        Opening.kind, Opening.function?] using block
  | _ =>
    simpa [items, places, List.flatMap_map] using itemsOf_plain rfl frame next place

theorem framesOf_script (place : Place) (node : Node Expr) :
    framesOf (node.script place) = node.frameCount + (node.children.map Expr.frameCount).sum := by
  cases node with
  | function name uniqueName arities =>
    simp only [script, frameCount, children]
    induction arities with
    | nil => simp [framesOf]
    | cons arity arities ih =>
      simp only [List.map_cons, Arity.block, framesOf, framesOf_flat arity.flat_block,
        visited_append, visited_map_bind, visited, List.nil_append, List.map_nil, List.sum_cons,
        List.sum_nil, ih, List.length_cons]
      omega
  | lets isLoop pairs body inner =>
    simp only [script, frameCount, children, framesOf,
      framesOf_flat (flat_pairs isLoop pairs inner _ body)]
    simp [visited, visited_pairs]
  | letfns pairs body inner =>
    simp only [script, frameCount, children, framesOf, framesOf_flat (flat_letfns pairs place body)]
    simp [visited]
  | guarded body inner handler cleanup =>
    cases handler <;> cases cleanup <;>
      simp [script, frameCount, children, framesOf, Handler.block] <;> omega
  | _ =>
    rw [framesOf_flat (flat_script rfl place), visited_script]
    exact (Nat.zero_add _).symm

end Node

/-! ### Numbers that are given out -/

/-- The numbers in an interval that have a property, each once. -/
structure Numbers (ids : List Nat) (first last : Nat) (proper : Nat → Prop) : Prop where
  le : first ≤ last
  distinct : ids.Nodup
  covers : ∀ id, id ∈ ids ↔ first ≤ id ∧ id < last ∧ proper id

namespace Numbers

variable {ids others : List Nat} {first middle last : Nat} {proper : Nat → Prop}

theorem trans (front : Numbers ids first middle proper) (back : Numbers others middle last proper) :
    Numbers (ids ++ others) first last proper := by
  have lower := front.le
  have upper := back.le
  refine ⟨by omega, ?_, ?_⟩
  · rw [List.nodup_append]
    refine ⟨front.distinct, back.distinct, fun id member other member' same => ?_⟩
    have below := (front.covers id).mp member
    have above := (back.covers other).mp member'
    omega
  · intro id
    rw [List.mem_append, front.covers, back.covers]
    constructor
    · rintro (⟨_, _, holds⟩ | ⟨_, _, holds⟩)
      · exact ⟨by omega, by omega, holds⟩
      · exact ⟨by omega, by omega, holds⟩
    · rintro ⟨_, _, holds⟩
      by_cases early : id < middle
      · exact .inl ⟨by omega, early, holds⟩
      · exact .inr ⟨by omega, by omega, holds⟩

theorem perm (numbers : Numbers ids first last proper) (same : ids.Perm others) :
    Numbers others first last proper :=
  ⟨numbers.le, same.nodup_iff.mp numbers.distinct,
    fun id => same.symm.mem_iff.trans (numbers.covers id)⟩

theorem none (le : first ≤ last) (improper : ∀ id, first ≤ id → id < last → ¬ proper id) :
    Numbers [] first last proper := by
  refine ⟨le, List.nodup_nil, fun id => ?_⟩
  simp only [List.not_mem_nil, false_iff]
  exact fun ⟨lower, upper, holds⟩ => improper id lower upper holds

theorem one (next : last = first + 1) (holds : proper first) :
    Numbers [first] first last proper := by
  refine ⟨by omega, by simp, fun id => ?_⟩
  rw [List.mem_singleton]
  constructor
  · rintro rfl
    exact ⟨Nat.le_refl _, by omega, holds⟩
  · rintro ⟨lower, upper, _⟩
    omega

end Numbers

/-! ### What a run lays out -/

namespace Opening.Records

variable {opening : Opening} {frame : FrameId} {known : Option FrameId}

theorem outline (recorded : opening.Records frame known) (parent : FrameId) :
    (opening.frame parent).outline? = opening.function? := by
  cases opening with
  | function context =>
    obtain ⟨_, tail, named⟩ := recorded
    cases context
    cases tail
    cases named
    rfl
  | _ => rfl

theorem getD (recorded : opening.Records frame known) : known.getD frame = frame := by
  cases opening with
  | function context => rw [recorded.1, Option.getD_some]
  | _ =>
    cases recorded
    rfl

end Opening.Records

/-- Whether a binding is there and is no copy. -/
def FrameTree.IsOriginal (tree : FrameTree) (id : BindingId) : Prop :=
  ∃ held, tree.binding? id = some held ∧ held.capturedFrom = none

/-- The frames that are opened and the bindings that are made between two trees, copies apart. They
stand in a final tree. -/
structure Laid (final : FrameTree) (items : List Item) (before after : FrameTree) : Prop where
  frames : Numbers (items.filterMap Item.frameId?) before.frames.size after.frames.size
    fun _ => True
  bindings : Numbers (items.filterMap Item.bindingId?) before.bindings.size after.bindings.size
    final.IsOriginal
  stands : ∀ item ∈ items, item.Stands final

namespace Laid

variable {final before between after : FrameTree} {items others : List Item} {frame : FrameId}

theorem trans (first : Laid final items before between) (second : Laid final others between after) :
    Laid final (items ++ others) before after where
  frames := by
    rw [List.filterMap_append]
    exact first.frames.trans second.frames
  bindings := by
    rw [List.filterMap_append]
    exact first.bindings.trans second.bindings
  stands item member := (List.mem_append.mp member).elim (first.stands item) (second.stands item)

theorem perm (laid : Laid final items before after) (same : items.Perm others) :
    Laid final others before after where
  frames := laid.frames.perm (same.filterMap _)
  bindings := laid.bindings.perm (same.filterMap _)
  stands item member := laid.stands item (same.symm.subset member)

theorem of_copies (adds : before.AddsCopies after) (grows : after.Grows final) :
    Laid final [] before after where
  frames := .none (Nat.le_of_eq adds.frames.symm) fun id lower upper _ => by
    have := adds.frames
    omega
  bindings := by
    refine .none adds.count fun id lower upper ⟨held, found, original⟩ => ?_
    have new : after.Entry id _ _ _ := ⟨_, Array.getElem?_eq_getElem upper, rfl, rfl, rfl⟩
    obtain ⟨copied, _⟩ := adds.held _ _ _ _ new lower
    obtain ⟨_, _, same⟩ := (new.keeps grows.bindings).unique ⟨held, found, rfl, rfl, rfl⟩
    exact copied (same.symm.trans original)
  stands _ member := by cases member

theorem opening {opening : Opening} {inner : FrameId} {known : Option FrameId} {arity : Option Nat}
    (opened : before.enter opening frame = (inner, after)) (recorded : opening.Records inner known)
    (grows : after.Grows final)
    (counted : ∃ last, final.frame? inner = some last ∧ last.loopArity? = arity) :
    Laid final [.frame frame inner opening.kind opening.function? arity] before after := by
  obtain ⟨rfl, bindings, size, held, _⟩ := FrameTree.enter_some opened
  refine ⟨.one size trivial, ?_, ?_⟩
  · rw [bindings]
    exact .none (Nat.le_refl _) fun id lower upper _ => by omega
  · intro item member
    cases List.mem_singleton.mp member
    obtain ⟨grown, held, same⟩ := grows.frames _ _ held
    obtain ⟨_, held', counted⟩ := counted
    cases held.symm.trans held'
    exact ⟨grown, held, same.parent, same.kind, same.outline.trans (recorded.outline frame),
      counted⟩

theorem binding {id : BindingId} {how : Introduction} (binds : Binds frame id how before after)
    (grows : after.Grows final) : Laid final [.binding frame id] before after := by
  obtain ⟨_, _, _, _, bound⟩ := binds.bound
  obtain ⟨rfl, pushed, size, _, _⟩ := FrameTree.bind_some bound
  have new := FrameTree.binding?_push pushed before.bindings.size
  rw [if_pos rfl] at new
  obtain ⟨kept, held, agrees⟩ := grows.bindings _ _ new
  refine ⟨?_, ?_, ?_⟩
  · rw [size]
    exact .none (Nat.le_refl _) fun id lower upper _ => by omega
  · exact .one (by rw [pushed, Array.size_push]) ⟨kept, held, agrees.capturedFrom⟩
  · intro item member
    cases List.mem_singleton.mp member
    exact ⟨kept, held, agrees.frame, agrees.capturedFrom⟩

end Laid

/-- A later tree takes nothing back, and binds and counts no names in the frames from a number on. -/
structure FrameTree.Closes (first : FrameId) (before after : FrameTree) : Prop where
  grows : before.Grows after
  keeps : ∀ id, first ≤ id → id < before.frames.size → FrameTree.KeepsNames id before after

namespace FrameTree.Closes

variable {first next : FrameId} {before between after : FrameTree}

theorem refl (tree : FrameTree) : Closes first tree tree := ⟨.refl tree, fun _ _ _ => .refl⟩

theorem trans (closes : Closes first before between) (closes' : Closes first between after) :
    Closes first before after :=
  ⟨closes.grows.trans closes'.grows, fun id new old => (closes.keeps id new old).trans
    (closes'.keeps id new (Nat.lt_of_lt_of_le old closes.grows.size))⟩

theorem later (closes : Closes first before after) (le : first ≤ next) :
    Closes next before after :=
  ⟨closes.grows, fun id new => closes.keeps id (Nat.le_trans le new)⟩

end FrameTree.Closes

theorem Ends.closes {first : FrameId} {node : Node Expr} {before after : Store}
    (ends : Ends node before after) : FrameTree.Closes first before.tree after.tree :=
  ⟨ends.grows.1, fun id _ _ => ends.grows.2 id⟩

theorem Enacts.closes {config : Config} {first frame : FrameId} {steps : List Step}
    {before after : Store} (run : Enacts config frame steps before after) (outer : frame < first) :
    FrameTree.Closes first before.tree after.tree :=
  ⟨run.grows, fun _ new old => run.keepsNames old fun same =>
    absurd (same ▸ new) (Nat.not_le.mpr outer)⟩

/-- What a run lays out and what is counted inside of it stays in a tree that comes after the run, as
the run works in a frame that it has not opened itself. -/
theorem Enacts.laid {config : Config} {frame : FrameId} {steps : List Step} {before after : Store}
    {final : FrameTree} (run : Enacts config frame steps before after)
    (old : frame < before.tree.frames.size)
    (closed : FrameTree.Closes before.tree.frames.size after.tree final) :
    Laid final (itemsOf frame before.tree.frames.size steps) before.tree after.tree ∧
      after.tree.frames.size = before.tree.frames.size + framesOf steps := by
  induction run with
  | done =>
    simp only [itemsOf, framesOf]
    exact ⟨.of_copies (.refl _) closed.grows, rfl⟩
  | bind binds run ih =>
    obtain ⟨_, _, _, _, bound⟩ := binds.bound
    have size := (FrameTree.bind_some bound).2.2.1
    obtain ⟨laid, count⟩ := ih (size.symm ▸ old) (size.symm ▸ closed)
    simp only [itemsOf, framesOf]
    rw [size] at laid count
    exact ⟨(Laid.binding binds (run.grows.trans closed.grows)).trans laid, count⟩
  | count counts run ih =>
    obtain ⟨_, _, _, _, _, size, _⟩ := counts.counted
    obtain ⟨laid, count⟩ := ih (size.symm ▸ old) (size.symm ▸ closed)
    simp only [itemsOf, framesOf]
    rw [size] at laid count
    exact ⟨(Laid.of_copies counts.addsCopies (run.grows.trans closed.grows)).trans laid, count⟩
  | @block _ _ _ _ _ _ inner before between after opened recorded within run inside rest =>
    obtain ⟨next, _, size, entered, _⟩ := FrameTree.enter_some opened
    have reached := within.grows.size
    simp only [size] at reached
    -- What follows the block counts names in the frame around it at most.
    have followed : FrameTree.Closes before.tree.frames.size between.tree final :=
      (run.closes old).trans closed
    obtain ⟨laid, count⟩ := inside (by rw [size, next]; exact Nat.lt_succ_self _)
      (followed.later (by rw [size]; exact Nat.le_succ _))
    have grown : before.tree.frames.size ≤ between.tree.frames.size := by omega
    obtain ⟨laid', count'⟩ := rest (Nat.lt_of_lt_of_le old grown) (closed.later grown)
    obtain ⟨held, found, counted⟩ := within.counted entered
    obtain ⟨last, found, _, stays⟩ :=
      followed.keeps _ (Nat.le_of_eq next.symm) (FrameTree.frame?_lt found) _ found
    have first := Laid.opening opened recorded (within.grows.trans followed.grows)
      ⟨last, found, stays.trans counted⟩
    simp only [itemsOf, framesOf]
    rw [← next, recorded.getD]
    rw [size, ← next] at laid count
    rw [count] at laid' count'
    exact ⟨(first.trans laid).trans laid', by omega⟩
  | visit _ begins within ends run follows rest =>
    have begun := begins.effect.frames_size
    have grown := begun ▸ within.grows.size.trans ends.grows.1.size
    have ended := (run.closes old).trans closed
    have followed := ends.closes.trans ended
    obtain ⟨laid, count⟩ := follows (begun.symm ▸ old) (begun.symm ▸ followed)
    obtain ⟨laid', count'⟩ := rest (Nat.lt_of_lt_of_le old grown) (closed.later grown)
    have first := Laid.of_copies begins.effect.addsCopies (within.grows.trans followed.grows)
    have last := Laid.of_copies ends.addsCopies ended.grows
    -- The items of the script are those of the node and of its children.
    rw [begun] at laid count
    have laid := laid.perm (Node.itemsOf_script ..)
    rw [← Expr.items_eq] at laid
    rw [Node.framesOf_script, ← Expr.frameCount_eq] at count
    rw [ends.frames_size, count] at laid' count'
    simp only [itemsOf, framesOf]
    refine ⟨?_, by omega⟩
    simpa using ((first.trans laid).trans last).trans laid'

/-! ### The result of an analysis -/

/-- Frames and bindings are those of the expression. -/
structure Mirrors (tree : FrameTree) (expr : Expr) : Prop where
  /-- The first frame is the root. -/
  root : ∃ root, tree.frame? FrameTree.rootId = some root ∧ root.kind = .root ∧ root.parent = none
  /-- There is no other root, and parents come first. -/
  inner : ∀ id frame, tree.frame? id = some frame → id ≠ FrameTree.rootId →
    frame.kind ≠ .root ∧ ∃ parent, frame.parent = some parent ∧ parent < id
  /-- Every node stands in a frame. -/
  nodes : (expr.placesIn FrameTree.rootId).map Prod.snd = expr.walk
  /-- Only the frames of arities know a function, and only those of loops know a number of names. -/
  known : ∀ id frame, tree.frame? id = some frame →
    (frame.function?.isSome ↔ frame.kind = .function) ∧
      (frame.loopArity?.isSome ↔ frame.kind = .loop)
  /-- The frames of a node have its frame for a parent and know its parameters or the number of its
  pairs; its bindings belong to its frames. -/
  stands : ∀ item ∈ expr.items FrameTree.rootId, item.Stands tree
  /-- Every frame but the root belongs to one place in the expression. -/
  frames : ((expr.items FrameTree.rootId).filterMap Item.frameId?).Nodup ∧
    ∀ id, id ∈ (expr.items FrameTree.rootId).filterMap Item.frameId? ↔
      id ≠ FrameTree.rootId ∧ id < tree.frames.size
  /-- Every binding that is no copy belongs to one place in the expression. -/
  bindings : ((expr.items FrameTree.rootId).filterMap Item.bindingId?).Nodup ∧
    ∀ id, id ∈ (expr.items FrameTree.rootId).filterMap Item.bindingId? ↔ tree.IsOriginal id
  /-- A copy is held under its name by a function, and its source stands around that function. -/
  copies : ∀ id held source, tree.binding? id = some held → held.capturedFrom = some source →
    tree.isFunction held.frame = true ∧ tree.copy? held.frame held.name = some id ∧ source < id ∧
      ∃ original, tree.binding? source = some original ∧ original.name = held.name ∧
        tree.Around original.frame held.frame

theorem Expr.known_of_mem_items {expr : Expr} {frame parent id : FrameId} {kind : FrameKind}
    {function? : Option FnContext} {loopArity? : Option Nat}
    (member : .frame parent id kind function? loopArity? ∈ expr.items frame) :
    kind ≠ .root ∧ (function?.isSome ↔ kind = .function) ∧ (loopArity?.isSome ↔ kind = .loop) := by
  obtain ⟨entry, _, among⟩ := List.mem_flatMap.mp member
  exact Node.known_of_mem_items among

/-- The frames and bindings that an analysis leaves behind mirror its expression. -/
theorem Session.analyze_layout {σ : Type} {analyzer : Analyzer σ} {depth : Nat} {form : Form}
    {session : Session σ} {analysis : Analysis}
    (analyzed : ((Session.analyze analyzer depth form).run session).1 = .ok analysis) :
    Mirrors analysis.tree analysis.expr := by
  obtain ⟨names, run⟩ := Session.analyze_enacts analyzed
  have path : FrameTree.initial.Path FrameTree.rootId [FrameTree.rootId] := .root rfl rfl
  have sound := run.sound path FrameTree.sound_initial
  have nests := run.nests path FrameTree.sound_initial FrameTree.nests_initial
  obtain ⟨laid, _⟩ := run.laid Nat.one_pos (.refl _)
  simp only [itemsOf, List.append_nil] at laid
  obtain ⟨frames, bindings, stands⟩ := laid
  have rooted : ∃ root, analysis.tree.frame? FrameTree.rootId = some root ∧ root.kind = .root ∧
      root.parent = none ∧ root.function? = none ∧ root.loopArity? = none := by
    obtain ⟨root, held, grows⟩ := run.grows.frames FrameTree.rootId _ rfl
    obtain ⟨_, held', counted⟩ := run.counted
      (show FrameTree.initial.frame? _ = some { kind := .root, parent := none } from rfl)
    cases held.symm.trans held'
    exact ⟨root, held, grows.kind, grows.parent, Option.map_eq_none_iff.mp grows.outline, counted⟩
  -- Every other frame belongs to a node.
  have listed (id : FrameId) (frame : Frame) (held : analysis.tree.frame? id = some frame)
      (other : id ≠ FrameTree.rootId) : ∃ parent function? loopArity?,
        .frame parent id frame.kind function? loopArity? ∈ analysis.expr.items FrameTree.rootId ∧
          frame.parent = some parent ∧ frame.outline? = function? ∧
            frame.loopArity? = loopArity? := by
    have covered := (frames.covers id).mpr
      ⟨Nat.one_le_iff_ne_zero.mpr other, FrameTree.frame?_lt held, trivial⟩
    obtain ⟨item, member, numbered⟩ := List.mem_filterMap.mp covered
    cases item with
    | binding => cases numbered
    | frame parent _ kind function? loopArity? =>
      cases numbered
      obtain ⟨_, found, above, rfl, outline, arity⟩ := stands _ member
      cases held.symm.trans found
      exact ⟨parent, function?, loopArity?, member, above, outline, arity⟩
  constructor
  case root =>
    obtain ⟨root, held, kind, parent, _⟩ := rooted
    exact ⟨root, held, kind, parent⟩
  case inner =>
    intro id frame held other
    obtain ⟨parent, _, _, member, above, _⟩ := listed id frame held other
    exact ⟨(Expr.known_of_mem_items member).1, parent, above,
      sound.ordered id frame parent held above⟩
  case nodes => exact Pass.map_snd_nodes Node.places_complete ..
  case known =>
    intro id frame held
    by_cases here : id = FrameTree.rootId
    · obtain ⟨root, held', kind, _, unset, uncounted⟩ := rooted
      rw [here, held'] at held
      cases held
      simp [kind, unset, uncounted]
    · obtain ⟨_, _, _, member, _, rfl, rfl⟩ := listed id frame held here
      obtain ⟨_, function, loop⟩ := Expr.known_of_mem_items member
      rw [Frame.outline?, Option.isSome_map] at function
      exact ⟨function, loop⟩
  case stands => exact stands
  case frames =>
    refine ⟨frames.distinct, fun id => (frames.covers id).trans ?_⟩
    rw [and_true]
    exact and_congr_left' Nat.one_le_iff_ne_zero
  case bindings =>
    refine ⟨bindings.distinct, fun id => (bindings.covers id).trans ⟨fun held => held.2.2, ?_⟩⟩
    rintro ⟨held, found, original⟩
    exact ⟨Nat.zero_le _, FrameTree.binding?_lt found, held, found, original⟩
  case copies =>
    intro id held source found copied
    have entry : analysis.tree.Entry id held.name held.frame (some source) :=
      ⟨held, found, rfl, rfl, copied⟩
    obtain ⟨member, outer, origin, ⟨original, present, named, rfl, _⟩, around⟩ :=
      nests _ _ _ _ entry
    have copy := sound.copy?_of_mem member
    exact ⟨(sound.captures _ _ _ copy).1, copy, (sound.sources _ _ _ _ entry).1, original, present,
      named, around⟩

/-- `(fn* [x] (try nil (catch E e nil) (finally nil)))`. -/
def shielded : Form :=
  let symbol (name : String) : Form := .symbol (.simple name) .synthetic
  let list (items : List Form) : Form := .list items .synthetic
  let nil : Form := .atom .nil .synthetic
  list [symbol "fn*", .vector [symbol "x"] .synthetic, list [symbol "try", nil,
    list [symbol "catch", symbol "E", symbol "e", nil], list [symbol "finally", nil]]]

/-- In `shielded` handler and cleanup stand beside the body, in the frame of the function, and the
name of the exception belongs to the handler. -/
theorem shielded_layout : ∃ analysis handler cleanup bound,
    ((Session.analyze ⟨Namespaces.host, .standard⟩ 5 shielded).run (.start (.inside "user"))).1 =
      .ok analysis ∧
    analysis.tree.frame? 3 = some handler ∧ handler.parent = some 1 ∧
    analysis.tree.frame? 4 = some cleanup ∧ cleanup.parent = some 1 ∧
    analysis.tree.binding? 1 = some bound ∧ bound.frame = 3 := by
  have computed : (((Session.analyze ⟨Namespaces.host, .standard⟩ 5 shielded).run
      (.start (.inside "user"))).1.toOption.map fun analysis =>
        (analysis.expr.items 0).tail) =
      some [.binding 1 0, .frame 1 2 .guarded none none, .frame 1 3 .handler none none,
        .binding 3 1, .frame 1 4 .cleanup none none] := by
    decide +kernel
  obtain ⟨analysis, result, items⟩ := Option.map_eq_some_iff.mp computed
  have analyzed := ok_of_toOption result
  have stands (item : Item) (member : item ∈ (analysis.expr.items 0).tail) :=
    (Session.analyze_layout analyzed).stands item (List.mem_of_mem_tail member)
  rw [items] at stands
  obtain ⟨handler, handles, around, _⟩ := stands (.frame 1 3 .handler none none) (by simp)
  obtain ⟨cleanup, cleans, around', _⟩ := stands (.frame 1 4 .cleanup none none) (by simp)
  obtain ⟨bound, binds, owner, _⟩ := stands (.binding 3 1) (by simp)
  exact ⟨analysis, handler, cleanup, bound, analyzed, handles, around, cleans, around', binds,
    owner⟩

end LispScope
