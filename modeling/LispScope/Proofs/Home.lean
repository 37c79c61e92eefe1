import LispScope.Proofs.Occurrence
import LispScope.Proofs.Path

/-!
# Homes

The *home* of a node is the nearest function around it, or the root. By the tree of the expression it
is handed down from a node to its children, where an arity hands down its own frame; by the tree of
frames it is the nearest function at or around the frame in which the node is analyzed. Along every
run the two are the same.
-/
namespace LispScope

/-- The homes of the children of a node. -/
def Node.homes : Pass FrameId
  | _, .function _ _ arities => arities.map fun arity => (arity.frame, arity.body)
  | home, node => node.children.map (home, ·)

theorem Node.homes_complete : Pass.Complete Node.homes := by
  intro home node
  cases node <;> simp [homes, children, Function.comp_def]

/-- The nodes of an expression that stands on its own, with their homes, in the order of the walk. -/
def Expr.homed (expr : Expr) : List (FrameId × Expr) :=
  Pass.nodes Node.homes Node.homes_complete FrameTree.rootId expr

/-- Homes along scripts: only a function is a home of its own. -/
def homeTraversal : Traversal FrameId FrameId where
  bind home _ := home
  count home _ _ := home
  enter home opening known :=
    match opening, known with
    | .function _, some frame => frame
    | _, _ => home
  view home _ := home
  pass := Node.homes

namespace homeTraversal

@[simp] theorem view_eq (home : FrameId) (place : Place) : homeTraversal.view home place = home := rfl

@[simp] theorem bind_eq (home : FrameId) (binding : BindingId) :
    homeTraversal.bind home binding = home := rfl

@[simp] theorem count_eq (home frame : FrameId) (arity : Nat) :
    homeTraversal.count home frame arity = home := rfl

@[simp] theorem pass_eq : homeTraversal.pass = Node.homes := rfl

theorem enter_plain {opening : Opening} (plain : ∀ context, opening ≠ .function context)
    (home : FrameId) (known : Option FrameId) : homeTraversal.enter home opening known = home := by
  cases opening with
  | function context => exact absurd rfl (plain context)
  | _ => rfl

@[simp] theorem finish_countScript (home : FrameId) (isLoop : Bool) (frame : FrameId) (arity : Nat) :
    homeTraversal.finish home (countScript isLoop frame arity) = home := by
  cases isLoop <;> rfl

theorem views_pairs (home : FrameId) (isLoop : Bool) (pairs : List (BindingId × Expr)) :
    homeTraversal.views home (pairScript isLoop pairs) = pairs.map fun pair => (home, pair.2) := by
  induction pairs with
  | nil => simp [pairScript]
  | cons pair pairs ih =>
    rw [Traversal.views_pairs_cons, List.map_cons]
    exact congrArg _ ih

theorem foldl_bind (home : FrameId) (bindings : List BindingId) :
    bindings.foldl homeTraversal.bind home = home := by
  induction bindings with
  | nil => rfl
  | cons binding bindings ih => exact ih

theorem views_arities (home : FrameId) (name : Option Symbol) (uniqueName : String)
    (arities : List (Arity Expr)) :
    homeTraversal.views home (arities.map (Arity.block name uniqueName)) =
      arities.map fun arity => (arity.frame, arity.body) := by
  induction arities with
  | nil => simp
  | cons arity arities ih =>
    simp only [List.map_cons, Arity.block, Traversal.views_block, Traversal.views_append,
      Traversal.views_map_bind, Traversal.finish_map_bind, Traversal.views_visit,
      Traversal.views_nil, List.nil_append, List.cons_append, foldl_bind]
    exact congrArg _ ih

theorem lawful : homeTraversal.Lawful := by
  intro home place node
  cases node with
  | function name uniqueName arities => exact views_arities home name uniqueName arities
  | sequence items =>
    rcases List.eq_nil_or_concat items with rfl | ⟨items, last, rfl⟩ <;>
      simp [Node.script, Traversal.views_sequence, Node.homes, Node.children]
  | recur args target => cases target <;> simp [Node.script, Node.homes, Node.children]
  | lets isLoop pairs body frame =>
    cases isLoop <;> simp [Node.script, Traversal.views_append, views_pairs, Traversal.finish_pairs,
      Node.homes, Node.children, enter_plain, foldl_bind]
  | guarded body frame handler cleanup =>
    cases handler <;> cases cleanup <;>
      simp [Node.script, Handler.block, Node.homes, Node.children, enter_plain]
  | letfns pairs body frame =>
    simp [Node.script, Traversal.views_append, Node.homes, Node.children, enter_plain, foldl_bind]
  | _ => simp [Node.script, Traversal.views_append, Node.homes, Node.children]

end homeTraversal

/-- All nodes that a script reaches, with their homes. -/
def homed (home : FrameId) (steps : List Step) : List (FrameId × Expr) :=
  (homeTraversal.views home steps).flatMap fun view =>
    Pass.nodes Node.homes Node.homes_complete view.1 view.2

@[simp] theorem homed_nil (home : FrameId) : homed home [] = [] := by simp [homed]

@[simp] theorem homed_bind (home : FrameId) (binding : BindingId) (how : Introduction)
    (steps : List Step) : homed home (.bind binding how :: steps) = homed home steps := by
  simp [homed]

@[simp] theorem homed_count (home frame : FrameId) (arity : Nat) (steps : List Step) :
    homed home (.count frame arity :: steps) = homed home steps := by
  simp [homed]

@[simp] theorem homed_block (home : FrameId) (opening : Opening) (known : Option FrameId)
    (script steps : List Step) :
    homed home (.block opening known script :: steps) =
      homed (homeTraversal.enter home opening known) script ++ homed home steps := by
  simp [homed]

@[simp] theorem homed_visit (home : FrameId) (place : Place) (expr : Expr) (steps : List Step) :
    homed home (.visit place expr :: steps) =
      (home, expr) :: (homed home (expr.node.script place) ++ homed home steps) := by
  simp [homed, homeTraversal.lawful home place expr.node, Pass.nodes_eq _ home expr]

theorem Expr.homed_visit (expr : Expr) :
    LispScope.homed FrameTree.rootId [.visit .operand expr] = expr.homed := by
  simp [LispScope.homed, Expr.homed]

namespace FrameTree

/-- The nearest function at or around a frame, or the root. -/
inductive Home (tree : FrameTree) : FrameId → FrameId → Prop
  | function {id : FrameId} (held : tree.frame? id = some frame) (own : frame.isFunction = true) :
      Home tree id id
  | root {id : FrameId} (held : tree.frame? id = some frame) (top : frame.parent = none) :
      Home tree id id
  | inherited {id : FrameId} (held : tree.frame? id = some frame) (plain : frame.isFunction = false)
      (inside : frame.parent = some parent) (home : Home tree parent last) : Home tree id last

variable {tree before after : FrameTree} {id home : FrameId}

/-- A home is a function, or there is nothing around it. -/
theorem Home.owner (lives : tree.Home id home) : ∃ frame, tree.frame? home = some frame ∧
    (frame.isFunction = true ∨ frame.parent = none) := by
  induction lives with
  | function held own => exact ⟨_, held, .inl own⟩
  | root held top => exact ⟨_, held, .inr top⟩
  | inherited _ _ _ _ ih => exact ih

theorem Home.unique {other : FrameId} (first : tree.Home id home) (second : tree.Home id other) :
    home = other := by
  induction first with
  | function held own =>
    cases second with
    | function | root => rfl
    | inherited held' plain =>
      cases held.symm.trans held'
      rw [own] at plain
      cases plain
  | root held top =>
    cases second with
    | function | root => rfl
    | inherited held' _ inside =>
      cases held.symm.trans held'
      rw [top] at inside
      cases inside
  | inherited held plain inside _ ih =>
    cases second with
    | function held' own =>
      cases held.symm.trans held'
      rw [own] at plain
      cases plain
    | root held' top =>
      cases held.symm.trans held'
      rw [top] at inside
      cases inside
    | inherited held' _ inside' second =>
      cases held.symm.trans held'
      cases inside.symm.trans inside'
      exact ih second

theorem Home.of_climb {steps : Nat} {lineage : Lineage} (climbed : tree.climb steps id = some lineage)
    (closest : lineage.closestFunction = some home) : tree.Home id home := by
  induction steps generalizing id lineage with
  | zero => cases climbed
  | succ steps ih =>
    simp only [climb, Option.bind_eq_bind, Option.bind_eq_some_iff] at climbed
    obtain ⟨frame, held, climbed⟩ := climbed
    cases above : frame.parent with
    | none =>
      rw [above] at climbed
      cases climbed
      cases closest
      exact .root held above
    | some parent =>
      simp only [above, Option.bind_eq_some_iff, Option.pure_def, Option.some.injEq] at climbed
      obtain ⟨outer, climbed, rfl⟩ := climbed
      -- There is at least the parent further out, so the frame itself counts only as a function.
      have inhabited : outer ≠ [] := by
        rintro rfl
        obtain ⟨_, same⟩ := (climb_some climbed).1.head
        cases same
      rw [Lineage.closestFunction] at closest
      · split at closest
        next own =>
          cases closest
          exact .function held own
        next plain => exact .inherited held (by simpa using plain) above (ih climbed closest)
      · exact inhabited

theorem Home.of_closestFunction (closest : tree.closestFunction id = some home) :
    tree.Home id home := by
  simp only [closestFunction, Option.bind_eq_bind, Option.bind_eq_some_iff] at closest
  obtain ⟨lineage, climbed, closest⟩ := closest
  exact .of_climb climbed closest

theorem Home.grows (lives : before.Home id home) (grows : before.Grows after) :
    after.Home id home := by
  induction lives with
  | function held own =>
    obtain ⟨grown, held, same⟩ := grows.frames _ _ held
    exact .function held (same.isFunction.trans own)
  | root held top =>
    obtain ⟨grown, held, same⟩ := grows.frames _ _ held
    exact .root held (same.parent.trans top)
  | inherited held plain inside _ ih =>
    obtain ⟨grown, held, same⟩ := grows.frames _ _ held
    exact .inherited held (same.isFunction.trans plain) (same.parent.trans inside) ih

/-- A function is opened as a home of its own, any other frame belongs where its parent does. -/
theorem Home.opened {opening : Opening} {known : Option FrameId} {inner : FrameId}
    (lives : before.Home id home) (opened : before.enter opening id = (inner, after))
    (recorded : opening.Records inner known) :
    after.Home inner (homeTraversal.enter home opening known) := by
  obtain ⟨_, _, _, held, _⟩ := enter_some opened
  have outside := lives.grows (enter_grows opened).1
  cases opening with
  | function context =>
    obtain ⟨rfl, _⟩ := recorded
    exact .function held rfl
  | _ => exact .inherited held rfl rfl outside

end FrameTree

/-- A node that a run reaches was begun in a frame that has the home of the node. -/
theorem Enacts.begun_of_homed {config : Config} {frame home : FrameId} {steps : List Step}
    {before after : Store} (run : Enacts config frame steps before after)
    (lives : before.tree.Home frame home) {owner : FrameId} {found : Expr}
    (member : (owner, found) ∈ homed home steps) :
    ∃ (around : FrameId) (earlier later : Store), Begins around found.node earlier later ∧
      after.tree.Home around owner := by
  induction run generalizing home with
  | done => simp at member
  | bind binds _ ih =>
    rw [homed_bind] at member
    exact ih (lives.grows binds.grows.1) member
  | count counts _ ih =>
    rw [homed_count] at member
    exact ih (lives.grows counts.grows.1) member
  | block opened recorded within follows inside rest =>
    rw [homed_block, List.mem_append] at member
    rcases member with member | member
    · obtain ⟨around, earlier, later, begins, lives⟩ :=
        inside (lives.opened opened recorded) member
      exact ⟨around, earlier, later, begins, lives.grows follows.grows⟩
    · exact rest (lives.grows ((FrameTree.enter_grows opened).1.trans within.grows)) member
  | visit _ begins within ends remains follows rest =>
    have lives' := lives.grows begins.effect.grows.1
    have last := ends.grows.1.trans remains.grows
    rw [homed_visit, List.mem_cons, List.mem_append] at member
    rcases member with same | member | member
    · cases same
      exact ⟨_, _, _, begins, lives'.grows (within.grows.trans last)⟩
    · obtain ⟨around, earlier, later, begins, lives⟩ := follows lives' member
      exact ⟨around, earlier, later, begins, lives.grows last⟩
    · exact rest (lives'.grows (within.grows.trans ends.grows.1)) member

end LispScope
