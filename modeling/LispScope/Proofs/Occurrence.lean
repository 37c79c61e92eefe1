import LispScope.Proofs.Growth

/-!
# Occurrences

What is true of a node often depends on what stands around it: the names in scope, the function or
loop it belongs to. A *pass* hands such a context down from a node to its children, and `Below`
collects the nodes of an expression with the contexts they get.

A *traversal* computes the same contexts along scripts. An invariant that relates the context to the
frames of the moment, and that every step preserves, can be observed all along a run; so each node
of a result was visited at a moment at which the invariant held for its context.
-/
namespace LispScope

theorem Expr.mem_walk_self (expr : Expr) : expr ∈ expr.walk := by
  rw [walk_eq]
  exact List.mem_cons_self ..

theorem Expr.mem_walk_of_child {expr child found : Expr} (among : child ∈ expr.children)
    (member : found ∈ child.walk) : found ∈ expr.walk := by
  rw [walk_eq]
  exact List.mem_cons_of_mem _ (List.mem_flatMap.mpr ⟨child, among, member⟩)

/-! ### Passes -/

/-- How a context is handed down to the children of a node. -/
abbrev Pass (β : Type) := β → Node Expr → List (β × Expr)

/-- An expression with a context, and a node at or below it with the context that it gets. -/
inductive Below (pass : Pass β) : β → Expr → β → Expr → Prop
  | here : Below pass context expr context expr
  | there {inner : β} (step : (inner, child) ∈ pass context expr.node)
      (below : Below pass inner child last found) : Below pass context expr last found

/-- Every child gets one context. -/
def Pass.Complete (pass : Pass β) : Prop :=
  ∀ context node, (pass context node).map Prod.snd = node.children

theorem Pass.Complete.child {pass : Pass β} (complete : pass.Complete) {context inner : β}
    {expr child : Expr} (step : (inner, child) ∈ pass context expr.node) :
    child ∈ expr.children := by
  rw [Expr.children, ← complete]
  exact List.mem_map_of_mem step

theorem Below.child {pass : Pass β} {context inner last : β} {expr found child : Expr}
    (below : Below pass context expr inner found) (member : (last, child) ∈ pass inner found.node) :
    Below pass context expr last child := by
  induction below with
  | here => exact .there member .here
  | there step _ ih => exact .there step (ih member)

/-- The nodes of an expression with their contexts, parents first. -/
def Pass.nodes (pass : Pass β) (complete : pass.Complete) (context : β) (expr : Expr) :
    List (β × Expr) :=
  (context, expr) :: (pass context expr.node).attach.flatMap fun step =>
    pass.nodes complete step.1.1 step.1.2
termination_by sizeOf expr
decreasing_by exact Expr.sizeOf_lt_of_mem_children (complete.child step.2)

theorem Pass.nodes_eq {pass : Pass β} (complete : pass.Complete) (context : β) (expr : Expr) :
    pass.nodes complete context expr = (context, expr) ::
      (pass context expr.node).flatMap fun step => pass.nodes complete step.1 step.2 := by
  rw [nodes, List.flatMap_subtype (g := fun step => pass.nodes complete step.1 step.2)
    fun _ _ => rfl, List.unattach_attach]

/-- The nodes are those of the walk, in its order. -/
theorem Pass.map_snd_nodes {pass : Pass β} (complete : pass.Complete) (context : β) (expr : Expr) :
    (pass.nodes complete context expr).map Prod.snd = expr.walk := by
  induction expr using Expr.induction generalizing context with
  | step expr ih =>
    -- Contexts do not matter for the walk, so the hypothesis is used at those of the children.
    have inner : ∀ step ∈ pass context expr.node,
        (pass.nodes complete step.1 step.2).map Prod.snd = step.2.walk :=
      fun step member => ih step.2 (complete.child member) step.1
    rw [nodes_eq, Expr.walk_eq, Expr.children, ← complete context, List.map_cons, List.map_flatMap,
      List.flatMap_map, List.flatMap_def, List.flatMap_def, List.map_congr_left inner]

/-- The nodes below an expression can be listed with the contexts that they get. -/
theorem Below.iff_mem_nodes {pass : Pass β} (complete : pass.Complete) {context inner : β}
    {expr found : Expr} :
    Below pass context expr inner found ↔ (inner, found) ∈ pass.nodes complete context expr := by
  constructor
  · intro below
    induction below with
    | here =>
      rw [Pass.nodes_eq]
      exact List.mem_cons_self ..
    | there step _ ih =>
      rw [Pass.nodes_eq]
      exact List.mem_cons_of_mem _ (List.mem_flatMap.mpr ⟨_, step, ih⟩)
  -- A node that is listed is the expression itself or listed below a child.
  · induction expr using Expr.induction generalizing context with
    | step expr ih =>
      intro member
      rw [Pass.nodes_eq, List.mem_cons, List.mem_flatMap] at member
      obtain same | ⟨⟨next, child⟩, step, member⟩ := member
      · cases same
        exact .here
      · exact .there step (ih child (complete.child step) member)

/-- Every node of the walk gets a context. -/
theorem Below.exists_of_mem_walk {pass : Pass β} (complete : pass.Complete) (context : β)
    {expr found : Expr} (member : found ∈ expr.walk) :
    ∃ inner, Below pass context expr inner found := by
  rw [← Pass.map_snd_nodes complete context] at member
  obtain ⟨⟨inner, found⟩, listed, rfl⟩ := List.mem_map.mp member
  exact ⟨inner, (Below.iff_mem_nodes complete).mpr listed⟩

/-! ### Walks along scripts -/

/-- The expressions that a script visits. -/
def visited : List Step → List Expr
  | [] => []
  | .visit _ expr :: steps => expr :: visited steps
  | .bind _ _ :: steps => visited steps
  | .count _ _ :: steps => visited steps
  | .block _ _ script :: steps => visited script ++ visited steps

@[simp] theorem visited_append (first second : List Step) :
    visited (first ++ second) = visited first ++ visited second := by
  induction first with
  | nil => simp [visited]
  | cons step first ih => cases step <;> simp [visited, ih]

@[simp] theorem visited_map_visit {γ : Type} (place : Place) (items : List γ) (pick : γ → Expr) :
    visited (items.map fun item => .visit place (pick item)) = items.map pick := by
  induction items with
  | nil => simp [visited]
  | cons item items ih => simp [visited, ih]

@[simp] theorem visited_map_bind {γ : Type} (how : Introduction) (items : List γ)
    (pick : γ → BindingId) : visited (items.map fun item => .bind (pick item) how) = [] := by
  induction items with
  | nil => simp [visited]
  | cons item items ih => simp [visited, ih]

theorem visited_pairs (isLoop : Bool) (pairs : List (BindingId × Expr)) :
    visited (pairScript isLoop pairs) = pairs.map Prod.snd := by
  induction pairs with
  | nil => simp [pairScript, visited]
  | cons pair pairs ih => simpa [pairScript, visited] using ih

@[simp] theorem visited_countScript (isLoop : Bool) (frame : FrameId) (arity : Nat) :
    visited (countScript isLoop frame arity) = [] := by
  cases isLoop <;> simp [countScript, visited]

/-- A script visits the children of its node in their order. -/
theorem visited_script (place : Place) (node : Node Expr) :
    visited (node.script place) = node.children := by
  have visits (place : Place) (items : List Expr) : visited (items.map (.visit place)) = items := by
    simpa using visited_map_visit place items fun item => item
  cases node with
  | function name uniqueName arities =>
    simp only [Node.script, Node.children]
    induction arities with
    | nil => simp [visited]
    | cons arity arities ih => simp [visited, Arity.block, ih]
  | recur args target => cases target <;> exact visits _ args
  | lets isLoop pairs body frame =>
    simp [Node.script, Node.children, visited, visited_pairs]
  | sequence items =>
    simp only [Node.script, Node.children]
    induction items using sequenceScript.induct with
    | case1 => simp [sequenceScript, visited]
    | case2 last => simp [sequenceScript, visited]
    | case3 first rest more ih =>
      obtain ⟨second, rest, rfl⟩ := List.exists_cons_of_ne_nil more
      simp [sequenceScript, visited, ih]
  | guarded body frame handler cleanup =>
    cases handler <;> cases cleanup <;> simp [Node.script, Node.children, visited, Handler.block]
  | call | letfns | branch | dispatch =>
    simp [Node.script, Node.children, visited, visits]
  | _ => exact visits _ _

/-- All expressions that a script reaches, parents first. -/
def reached (steps : List Step) : List Expr := (visited steps).flatMap Expr.walk

@[simp] theorem reached_nil : reached [] = [] := by simp [reached, visited]

@[simp] theorem reached_bind (binding : BindingId) (how : Introduction) (steps : List Step) :
    reached (.bind binding how :: steps) = reached steps := by
  simp [reached, visited]

@[simp] theorem reached_count (frame : FrameId) (arity : Nat) (steps : List Step) :
    reached (.count frame arity :: steps) = reached steps := by
  simp [reached, visited]

@[simp] theorem reached_block (opening : Opening) (known : Option FrameId)
    (script steps : List Step) :
    reached (.block opening known script :: steps) = reached script ++ reached steps := by
  simp [reached, visited]

/-- A visit reaches the expression, then what its own script reaches. -/
@[simp] theorem reached_visit (place : Place) (expr : Expr) (steps : List Step) :
    reached (.visit place expr :: steps) =
      expr :: (reached (expr.node.script place) ++ reached steps) := by
  simp [reached, visited, visited_script, Expr.walk_eq expr, Expr.children]

/-! ### Traversals -/

/-- A pass together with the way its contexts arise along scripts. The context of a script, in `α`,
follows the current frame; that of a node is what can be seen of it at the node's place. -/
structure Traversal (α β : Type) where
  /-- A name is bound in the current frame. -/
  bind : α → BindingId → α
  /-- The names of the current frame, that of a loop, are counted. -/
  count : α → FrameId → Nat → α
  /-- A frame is opened. -/
  enter : α → Opening → Option FrameId → α
  /-- What a node at a place sees. -/
  view : α → Place → β
  /-- What a node hands down to its children. -/
  pass : Pass β

namespace Traversal

variable {α β : Type} (traversal : Traversal α β)

/-- The expressions that a script visits, with their places and the contexts of the script. -/
def visits : α → List Step → List (α × Place × Expr)
  | _, [] => []
  | context, .visit place expr :: steps => (context, place, expr) :: visits context steps
  | context, .bind binding _ :: steps => visits (traversal.bind context binding) steps
  | context, .count frame arity :: steps => visits (traversal.count context frame arity) steps
  | context, .block opening known script :: steps =>
    visits (traversal.enter context opening known) script ++ visits context steps

/-- The context at the end of a script. -/
def finish : α → List Step → α
  | context, [] => context
  | context, .bind binding _ :: steps => finish (traversal.bind context binding) steps
  | context, .count frame arity :: steps => finish (traversal.count context frame arity) steps
  | context, _ :: steps => finish context steps

theorem finish_of_unbound {context : α} {steps : List Step}
    (unbound : ∀ step ∈ steps, step.isOwn = false) : traversal.finish context steps = context := by
  induction steps with
  | nil => rfl
  | cons step steps ih =>
    have rest := ih fun other member => unbound other (List.mem_cons_of_mem _ member)
    have here := unbound step (List.mem_cons_self ..)
    cases step with
    | bind binding how => cases here
    | count frame arity => cases here
    | visit place expr => exact rest
    | block opening known script => exact rest

/-- What the expressions of a script see. -/
def views (context : α) (steps : List Step) : List (β × Expr) :=
  (traversal.visits context steps).map fun visit => (traversal.view visit.1 visit.2.1, visit.2.2)

@[simp] theorem views_nil (context : α) : traversal.views context [] = [] := by
  simp [views, visits]

@[simp] theorem views_visit (context : α) (place : Place) (expr : Expr) (steps : List Step) :
    traversal.views context (.visit place expr :: steps) =
      (traversal.view context place, expr) :: traversal.views context steps := by
  simp [views, visits]

@[simp] theorem views_bind (context : α) (binding : BindingId) (how : Introduction)
    (steps : List Step) :
    traversal.views context (.bind binding how :: steps) =
      traversal.views (traversal.bind context binding) steps := by
  simp [views, visits]

@[simp] theorem views_count (context : α) (frame : FrameId) (arity : Nat) (steps : List Step) :
    traversal.views context (.count frame arity :: steps) =
      traversal.views (traversal.count context frame arity) steps := by
  simp [views, visits]

@[simp] theorem views_block (context : α) (opening : Opening) (known : Option FrameId)
    (script steps : List Step) :
    traversal.views context (.block opening known script :: steps) =
      traversal.views (traversal.enter context opening known) script ++
        traversal.views context steps := by
  simp [views, visits]

theorem views_append (context : α) (first second : List Step) :
    traversal.views context (first ++ second) =
      traversal.views context first ++
        traversal.views (traversal.finish context first) second := by
  induction first generalizing context with
  | nil => simp [finish]
  | cons step first ih => cases step <;> simp [finish, ih]

theorem finish_append (context : α) (first second : List Step) :
    traversal.finish context (first ++ second) =
      traversal.finish (traversal.finish context first) second := by
  induction first generalizing context with
  | nil => rfl
  | cons step first ih => cases step <;> simp [finish, ih]

@[simp] theorem views_map_visit {γ : Type} (context : α) (place : Place) (items : List γ)
    (pick : γ → Expr) :
    traversal.views context (items.map fun item => .visit place (pick item)) =
      items.map fun item => (traversal.view context place, pick item) := by
  induction items with
  | nil => simp
  | cons item items ih => simp [ih]

@[simp] theorem views_visits (context : α) (place : Place) (items : List Expr) :
    traversal.views context (items.map (.visit place)) =
      items.map (traversal.view context place, ·) :=
  traversal.views_map_visit context place items fun item => item

@[simp] theorem finish_map_visit {γ : Type} (context : α) (place : Place) (items : List γ)
    (pick : γ → Expr) :
    traversal.finish context (items.map fun item => .visit place (pick item)) = context := by
  apply traversal.finish_of_unbound
  intro step member
  obtain ⟨item, _, rfl⟩ := List.mem_map.mp member
  rfl

@[simp] theorem views_map_bind {γ : Type} (context : α) (how : Introduction) (items : List γ)
    (pick : γ → BindingId) :
    traversal.views context (items.map fun item => .bind (pick item) how) = [] := by
  induction items generalizing context with
  | nil => simp
  | cons item items ih => simp [ih]

@[simp] theorem finish_map_bind {γ : Type} (context : α) (how : Introduction) (items : List γ)
    (pick : γ → BindingId) :
    traversal.finish context (items.map fun item => .bind (pick item) how) =
      (items.map pick).foldl traversal.bind context := by
  induction items generalizing context with
  | nil => rfl
  | cons item items ih => simp [finish, ih]

theorem views_pairs_cons (context : α) (isLoop : Bool) (pair : BindingId × Expr)
    (pairs : List (BindingId × Expr)) :
    traversal.views context (pairScript isLoop (pair :: pairs)) =
      (traversal.view context (.operandAs false), pair.2) ::
        traversal.views (traversal.bind context pair.1) (pairScript isLoop pairs) := by
  simp [pairScript]

theorem finish_pairs (context : α) (isLoop : Bool) (pairs : List (BindingId × Expr)) :
    traversal.finish context (pairScript isLoop pairs) =
      (pairs.map Prod.fst).foldl traversal.bind context := by
  induction pairs generalizing context with
  | nil => rfl
  | cons pair pairs ih =>
    have split : pairScript isLoop (pair :: pairs) =
        .visit (.operandAs false) pair.2 :: .bind pair.1 (.initial isLoop pair.2) ::
          pairScript isLoop pairs := rfl
    simp [split, finish, ih]

@[simp] theorem views_countScript (context : α) (isLoop : Bool) (frame : FrameId) (arity : Nat) :
    traversal.views context (countScript isLoop frame arity) = [] := by
  cases isLoop <;> simp [countScript]

theorem views_sequence (context : α) (place : Place) (items : List Expr) :
    traversal.views context (sequenceScript place items) =
      items.dropLast.map (traversal.view context .statement, ·) ++
        items.getLast?.toList.map (traversal.view context place, ·) := by
  induction items using sequenceScript.induct with
  | case1 => simp [sequenceScript]
  | case2 last => simp [sequenceScript]
  | case3 first rest more ih =>
    obtain ⟨second, rest, rfl⟩ := List.exists_cons_of_ne_nil more
    simp [sequenceScript, ih]

/-- Along the script of a node its children see what the node hands down to them. -/
def Lawful : Prop :=
  ∀ context place node,
    traversal.views context (node.script place) = traversal.pass (traversal.view context place) node

/-- An invariant of contexts, frames and stores that every step of a run preserves, as long as the
nodes are legal. All stores of the run grow into a final tree. -/
structure Carries (config : Config) (final : FrameTree) (legal : β → Expr → Prop)
    (invariant : α → FrameId → Store → Prop) : Prop where
  lawful : traversal.Lawful
  handsDown : ∀ {context expr inner child}, legal context expr →
    (inner, child) ∈ traversal.pass context expr.node → legal inner child
  bind : ∀ {context frame binding how tree} {before : Store}, invariant context frame before →
    Binds frame binding how before.tree tree → tree.Grows final →
    invariant (traversal.bind context binding) frame { before with tree }
  count : ∀ {context frame arity tree} {before : Store}, invariant context frame before →
    Counts frame arity before.tree tree →
    invariant (traversal.count context frame arity) frame { before with tree }
  enter : ∀ {context frame opening known inner tree} {before : Store},
    invariant context frame before → before.tree.enter opening frame = (inner, tree) →
    opening.Records inner known →
    invariant (traversal.enter context opening known) inner { before with tree }
  leave : ∀ {context last frame opening inner tree script} {before between : Store},
    invariant context frame before → before.tree.enter opening frame = (inner, tree) →
    Enacts config inner script { before with tree } between → invariant last inner between →
    invariant context frame between
  begins : ∀ {context frame place expr} {before after : Store}, invariant context frame before →
    legal (traversal.view context place) expr → expr.Fits config place →
    Begins frame expr.node before after → invariant context frame after
  ends : ∀ {context frame node} {before after : Store}, invariant context frame before →
    Ends node before after → invariant context frame after

end Traversal

/-- A run along which an invariant is observed. -/
inductive Observed (traversal : Traversal α β) (config : Config) (final : FrameTree)
    (legal : β → Expr → Prop) (invariant : α → FrameId → Store → Prop) :
    α → FrameId → List Step → Store → Store → Prop
  | done (holds : invariant context frame store) (grows : store.tree.Grows final) :
      Observed traversal config final legal invariant context frame [] store store
  | bind {before after : Store} (holds : invariant context frame before)
      (binds : Binds frame binding how before.tree tree)
      (rest : Observed traversal config final legal invariant (traversal.bind context binding) frame
        steps { before with tree } after) :
      Observed traversal config final legal invariant context frame (.bind binding how :: steps)
        before after
  | count {before after : Store} (holds : invariant context frame before)
      (counts : Counts frame arity before.tree tree)
      (rest : Observed traversal config final legal invariant
        (traversal.count context frame arity) frame steps { before with tree } after) :
      Observed traversal config final legal invariant context frame (.count frame arity :: steps)
        before after
  | block {inner : FrameId} {before between after : Store} (holds : invariant context frame before)
      (opened : before.tree.enter opening frame = (inner, tree))
      (recorded : opening.Records inner known)
      (inside : Observed traversal config final legal invariant
        (traversal.enter context opening known) inner script { before with tree } between)
      (rest : Observed traversal config final legal invariant context frame steps between after) :
      Observed traversal config final legal invariant context frame
        (.block opening known script :: steps) before after
  | visit {before begun followed ended after : Store} (holds : invariant context frame before)
      (allowed : legal (traversal.view context place) expr) (fits : expr.Fits config place)
      (begins : Begins frame expr.node before begun)
      (follows : Observed traversal config final legal invariant context frame
        (expr.node.script place) begun followed)
      (ends : Ends expr.node followed ended)
      (rest : Observed traversal config final legal invariant context frame steps ended after) :
      Observed traversal config final legal invariant context frame (.visit place expr :: steps)
        before after

namespace Observed

variable {α β : Type} {traversal : Traversal α β} {config : Config} {final : FrameTree}
  {legal : β → Expr → Prop} {invariant : α → FrameId → Store → Prop} {context : α}
  {frame : FrameId} {steps : List Step} {before after : Store}

/-- An invariant that every step preserves is observed along every run of legal nodes, and holds at
its end. -/
theorem of_enacts (carries : traversal.Carries config final legal invariant)
    (run : Enacts config frame steps before after) (grows : after.tree.Grows final)
    (allowed : ∀ visit ∈ traversal.views context steps, legal visit.1 visit.2)
    (holds : invariant context frame before) :
    Observed traversal config final legal invariant context frame steps before after ∧
      invariant (traversal.finish context steps) frame after := by
  induction run generalizing context with
  | done => exact ⟨.done holds grows, holds⟩
  | bind binds run ih =>
    rw [Traversal.views_bind] at allowed
    have bound := carries.bind holds binds (run.grows.trans grows)
    obtain ⟨rest, last⟩ := ih grows allowed bound
    exact ⟨.bind holds binds rest, last⟩
  | count counts _ ih =>
    rw [Traversal.views_count] at allowed
    obtain ⟨rest, last⟩ := ih grows allowed (carries.count holds counts)
    exact ⟨.count holds counts rest, last⟩
  | block opened recorded within run inside rest =>
    simp only [Traversal.views_block, List.mem_append] at allowed
    have entered := carries.enter holds opened recorded
    obtain ⟨observed, last⟩ :=
      inside (run.grows.trans grows) (fun visit member => allowed visit (.inl member)) entered
    -- The context inside is dropped again, with the frame it belongs to.
    have left := carries.leave holds opened within last
    obtain ⟨others, last⟩ := rest grows (fun visit member => allowed visit (.inr member)) left
    exact ⟨.block holds opened recorded observed others, last⟩
  | visit fits begins within ends run follows rest =>
    simp only [Traversal.views_visit, List.mem_cons] at allowed
    have here := allowed _ (.inl rfl)
    have begun := carries.begins holds here fits begins
    have ended := ends.grows.1.trans (run.grows.trans grows)
    -- The nodes of its script are the children of the visited node, with what it hands down.
    obtain ⟨observed, followed⟩ := follows ended (fun visit member =>
      carries.handsDown here (carries.lawful _ _ _ ▸ member)) begun
    -- A script binds nothing in the current frame, so the context is the same at its end.
    rw [traversal.finish_of_unbound fun _ member => Node.isOwn_script member] at followed
    obtain ⟨others, last⟩ := rest grows (fun visit member => allowed visit (.inr member))
      (carries.ends followed ends)
    exact ⟨.visit holds here fits begins observed ends others, last⟩

/-- What the invariant says at the start. -/
theorem start
    (observed : Observed traversal config final legal invariant context frame steps before after) :
    invariant context frame before := by
  cases observed <;> assumption

/-- An observed run is a run. -/
theorem enacts
    (observed : Observed traversal config final legal invariant context frame steps before after) :
    Enacts config frame steps before after := by
  induction observed with
  | done => exact .done
  | bind _ binds _ ih => exact .bind binds ih
  | count _ counts _ ih => exact .count counts ih
  | block _ opened recorded _ _ inside rest => exact .block opened recorded inside rest
  | visit _ _ fits begins _ ends _ follows rest => exact .visit fits begins follows ends rest

theorem grows
    (observed : Observed traversal config final legal invariant context frame steps before after) :
    after.tree.Grows final := by
  induction observed <;> assumption

/-- Every node at or below those of a script was visited at a moment of the run. -/
theorem moment (lawful : traversal.Lawful)
    (observed : Observed traversal config final legal invariant context frame steps before after)
    {outer inner : β} {expr found : Expr} (member : (outer, expr) ∈ traversal.views context steps)
    (below : Below traversal.pass outer expr inner found) :
    ∃ (around : α) (place : Place) (at_ : FrameId) (earlier begun : Store),
      inner = traversal.view around place ∧ found.Fits config place ∧
      invariant around at_ earlier ∧ Begins at_ found.node earlier begun ∧
      invariant around at_ begun ∧ begun.tree.Grows final := by
  induction observed generalizing outer expr with
  | done => simp at member
  | bind _ _ _ ih =>
    rw [Traversal.views_bind] at member
    exact ih member below
  | count _ _ _ ih =>
    rw [Traversal.views_count] at member
    exact ih member below
  | block _ _ _ _ _ inside rest =>
    simp only [Traversal.views_block, List.mem_append] at member
    obtain member | member := member
    · exact inside member below
    · exact rest member below
  | visit holds _ fits begins observed ends others follows rest =>
    simp only [Traversal.views_visit, List.mem_cons] at member
    obtain same | member := member
    · cases same
      cases below with
      | here =>
        have later := ends.grows.1.trans (others.enacts.grows.trans others.grows)
        exact ⟨_, _, _, _, _, rfl, fits, holds, begins, observed.start,
          observed.enacts.grows.trans later⟩
      -- A node further down was visited while the script was carried out.
      | there step below => exact follows (lawful _ _ _ ▸ step) below
    · exact rest member below

end Observed

end LispScope
