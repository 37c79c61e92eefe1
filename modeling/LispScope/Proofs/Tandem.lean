import LispScope.Proofs.Placement
import LispScope.Proofs.Resemblance

/-!
# Analyses that go on in tandem

Two computations go on in tandem if, begun in matching states, they end both with results, which are
related, or both without one, and in any case leave matching states. What they do to the first tree
is made of steps, however they end. There is one rule for each primitive step here.
-/
namespace LispScope

open AnalysisM

variable {σ : Type} {host : Host σ} {start : σ} {α β γ δ : Type}

/-- States that differ only in the places of initial values and in the macro calls on the stack. The first
tree is built. -/
structure State.Matches (host : Host σ) (start : σ) (first second : State σ) : Prop where
  world : second.world = first.world
  reached : host.Reaches start first.world
  tree : first.tree.Matches second.tree
  built : first.tree.Built
  names : second.names = first.names

theorem State.Matches.refl {state : State σ} (reached : host.Reaches start state.world)
    (built : state.tree.Built) : state.Matches host start state :=
  ⟨rfl, reached, .refl _, built, rfl⟩

/-- How two runs end that begin with a tree: both with a result, or both without one. -/
inductive Finishes (host : Host σ) (start : σ) (tree : FrameTree) (R : FrameTree → α → β → Prop) :
    EStateM.Result Halt (State σ) α → EStateM.Result Halt (State σ) β → Prop
  | ok (states : after.Matches host start after') (builds : tree.Builds after.tree)
      (related : R after.tree value value') :
      Finishes host start tree R (.ok value after) (.ok value' after')
  | error (states : after.Matches host start after') (builds : tree.Builds after.tree) :
      Finishes host start tree R (.error halt after) (.error halt' after')

/-- Two computations that go on in tandem from a tree. -/
def Tandem (host : Host σ) (start : σ) (tree : FrameTree) (R : FrameTree → α → β → Prop)
    (first : AnalysisM σ α) (second : AnalysisM σ β) : Prop :=
  ∀ before before' : State σ, before.Matches host start before' → before.tree = tree →
    Finishes host start tree R (first before) (second before')

namespace Tandem

variable {tree : FrameTree} {R : FrameTree → α → β → Prop} {S : FrameTree → γ → δ → Prop}
  {span span' : Span}

theorem pure {value : α} {value' : β} (related : R tree value value') :
    Tandem host start tree R (pure value) (pure value') := by
  rintro before before' states rfl
  exact .ok states (.refl _) related

theorem bind {first : AnalysisM σ α} {second : AnalysisM σ β} {next : α → AnalysisM σ γ}
    {next' : β → AnalysisM σ δ} (steps : Tandem host start tree R first second)
    (follow : ∀ after value value', tree.Builds after → R after value value' →
      Tandem host start after S (next value) (next' value')) :
    Tandem host start tree S (first >>= next) (second >>= next') := by
  intro before before' states same
  change Finishes host start tree S (EStateM.bind first next before)
    (EStateM.bind second next' before')
  have step := steps before before' states same
  unfold EStateM.bind
  generalize first before = result, second before' = result' at step
  cases step with
  | error states builds => exact .error states builds
  -- What follows begins in the states that the first part has left, which match again.
  | ok states builds related =>
    have rest := follow _ _ _ builds related _ _ states rfl
    dsimp only
    generalize next _ _ = final, next' _ _ = final' at rest
    cases rest with
    | error states further => exact .error states (builds.trans further)
    | ok states further related => exact .ok states (builds.trans further) related

theorem imp {Q : FrameTree → α → β → Prop} {first : AnalysisM σ α} {second : AnalysisM σ β}
    (steps : Tandem host start tree R first second)
    (weaker : ∀ after value value', tree.Builds after → R after value value' →
      Q after value value') :
    Tandem host start tree Q first second := by
  intro before before' states same
  have step := steps before before' states same
  generalize first before = result, second before' = result' at step
  cases step with
  | ok states builds related => exact .ok states builds (weaker _ _ _ builds related)
  | error states builds => exact .error states builds

theorem throw (halt halt' : Halt) : Tandem host start tree R (throw halt) (throw halt') := by
  rintro before before' states rfl
  exact .error states (.refl _)

theorem refuse (fault fault' : Fault) :
    Tandem host start tree R (refuse fault span) (refuse fault' span') :=
  throw _ _

/-- Nothing follows on what is refused. -/
theorem refuse_bind {fault fault' : Fault} {next : α → AnalysisM σ γ} {next' : β → AnalysisM σ δ} :
    Tandem host start tree S
      (AnalysisM.refuse fault span >>= next) (AnalysisM.refuse fault' span' >>= next') :=
  bind (R := fun _ _ _ => False) (refuse fault fault') fun _ _ _ _ impossible => impossible.elim

/-- What is found out without the state is found in both runs or in none. -/
theorem settle {Q : α → β → Prop} {answer : Except Diagnostic α} {answer' : Except Diagnostic β}
    (answers : Agree Q answer answer') :
    Tandem host start tree
      (fun after value value' => after = tree ∧ answer = .ok value ∧ Q value value')
      (settle answer) (settle answer') := by
  rintro before before' states rfl
  cases answers with
  | ok related => exact .ok states (.refl _) ⟨rfl, rfl, related⟩
  | error => exact .error states (.refl _)

theorem demand {Q : α → β → Prop} {answer : Option α} {answer' : Option β}
    (answers : Option.Rel Q answer answer') :
    Tandem host start tree
      (fun after value value' => after = tree ∧ answer = some value ∧ Q value value')
      (demand span answer) (demand span' answer') := by
  cases answers with
  | some related => exact pure ⟨rfl, rfl, related⟩
  | none => exact refuse _ _

/-! ### Reading and changing the tree -/

theorem readTree {ask ask' : FrameTree → Option α}
    (same : ∀ second, tree.Matches second → ask' second = ask tree) :
    Tandem host start tree (fun after value value' => after = tree ∧ ask tree = some value ∧
      value = value') (readTree span ask) (readTree span' ask') := by
  rintro before before' states rfl
  change Finishes host start before.tree _ (AnalysisM.demand span (ask before.tree) before)
    (AnalysisM.demand span' (ask' before'.tree) before')
  rw [same before'.tree states.tree]
  exact demand (optionRel_refl _) before before' states rfl

/-- What does the same to matching trees, by steps, is done in tandem. -/
theorem changeTree {change change' : FrameTree → Option (α × FrameTree)} {Q : FrameTree → α → Prop}
    (alike : ∀ second, tree.Matches second →
      Option.Rel (Keyed FrameTree.Matches) (change tree) (change' second))
    (builds : ∀ value after, tree.Built → change tree = some (value, after) →
      tree.Builds after ∧ Q after value) :
    Tandem host start tree (fun after value value' => value = value' ∧ Q after value)
      (changeTree span change) (changeTree span' change') := by
  rintro before before' states rfl
  have here := alike before'.tree states.tree
  generalize changed : change before.tree = result, changed' : change' before'.tree = result' at here
  cases here with
  | none =>
    rw [changeTree_of_none changed, changeTree_of_none changed']
    exact .error states (.refl _)
  | some related =>
    cases related with
    | mk value trees =>
      obtain ⟨made, holds⟩ := builds _ _ states.built changed
      rw [changeTree_ok.mpr ⟨_, changed, rfl⟩, changeTree_ok.mpr ⟨_, changed', rfl⟩]
      exact .ok ⟨states.world, states.reached, trees, states.built.trans made, states.names⟩ made
        ⟨rfl, holds⟩

/-- The same name is resolved to the same. -/
theorem resolve {cx : Context} (name : Symbol) :
    Tandem host start tree (fun after found found' => after = tree ∧ found = found' ∧
        ∀ target ∈ found, tree.Refers cx.frame name target)
      (resolve span cx name) (resolve span' cx name) := by
  have asked : Tandem host start tree _ (AnalysisM.resolve span cx name)
      (AnalysisM.resolve span' cx name) :=
    readTree fun second matching => by rw [matching.lineage_eq]
  refine imp asked ?_
  rintro after found _ _ ⟨rfl, answer, rfl⟩
  refine ⟨rfl, rfl, fun target member => ?_⟩
  obtain ⟨lineage, climbed, resolved⟩ := Option.map_eq_some_iff.mp answer
  exact ⟨lineage, climbed, resolved.trans member⟩

theorem openFrame {cx : Context} (kind : FrameKind)
    (inRange : cx.frame < tree.frames.size) :
    Tandem host start tree (fun after frame frame' => frame = frame' ∧ frame < after.frames.size ∧
        ∃ held, after.frame? frame = some held ∧ held.kind = kind)
      (openFrame cx kind) (openFrame cx kind) := by
  rintro before before' states rfl
  have here := states.tree.openFrame kind cx.frame
  generalize opened : before.tree.openFrame kind cx.frame = result,
    opened' : before'.tree.openFrame kind cx.frame = result' at here
  cases here with
  | mk frame trees =>
    have made : before.tree.Builds _ := .of_step (.opened inRange opened)
    obtain ⟨rfl, _, size, held, _⟩ := FrameTree.openFrame_some opened
    rw [openFrame_ok.mpr ⟨_, opened, rfl⟩, openFrame_ok.mpr ⟨_, opened', rfl⟩]
    refine .ok ⟨states.world, states.reached, trees, states.built.trans made, states.names⟩ made
      ⟨rfl, ?_, _, held, rfl⟩
    rw [size]
    exact Nat.lt_succ_self _

theorem bindLocal {frame : FrameId} {name : Symbol} {initial initial' : Option Expr} {needsBox : Bool}
    (plain : name.isQualified = false) (values : Option.Rel Expr.Matches initial initial') :
    Tandem host start tree (fun _ binding binding' => binding = binding')
      (bindLocal span frame name initial needsBox) (bindLocal span' frame name initial' needsBox) := by
  refine imp (changeTree (Q := fun _ _ => True)
    (fun second matching => matching.bind values frame name needsBox) ?_) fun _ _ _ _ held => held.1
  exact fun binding after _ bound => ⟨.of_step (.bound plain bound), trivial⟩

theorem useBinding {cx : Context} (found : Found BindingId) :
    Tandem host start tree (fun _ binding binding' => binding = binding')
      (useBinding span cx found) (useBinding span' cx found) := by
  refine imp (changeTree (Q := fun _ _ => True) (fun second matching => ?_) ?_)
    fun _ _ _ _ held => held.1
  · refine optionRel_bind (matching.capture found) ?_
    rintro _ _ ⟨binding, trees⟩
    refine optionRel_bind (trees.noteUse binding cx.boxed) fun _ _ trees => ?_
    exact .some (.mk binding trees)
  · intro binding after built used
    simp only [Option.bind_eq_bind, Option.bind_eq_some_iff, Option.pure_def, Option.some.injEq,
      Prod.mk.injEq, Prod.exists] at used
    obtain ⟨id, between, captured, _, noted, rfl, rfl⟩ := used
    -- A built tree has unqualified names only, so that copying them is made of steps.
    exact ⟨(built.plain.capture_builds captured).trans (.of_step (.noted noted)), trivial⟩

theorem useSelf {cx : Context} (found : Found FrameId) :
    Tandem host start tree (fun _ _ _ => True)
      (useSelf span cx found) (useSelf span' cx found) := by
  refine imp (changeTree (Q := fun _ _ => True) (fun second matching => ?_) ?_)
    fun _ _ _ _ _ => trivial
  · have selves := matching.captureSelf cx.frame found
    generalize tree.captureSelf cx.frame found = result,
      second.captureSelf cx.frame found = result' at selves
    cases selves with
    | none => exact .none
    | some trees => exact .some (.mk () trees)
  · intro _ after built taken
    simp only [Option.map_eq_some_iff, Prod.mk.injEq, true_and, exists_eq_right] at taken
    exact ⟨built.plain.captureSelf_builds taken, trivial⟩

/-- What is filled in or noted on a frame is a step. -/
theorem updateFrame {frame : FrameId} {change : Frame → Frame}
    (steps : ∀ after, tree.updateFrame frame change = some after → tree.Step after) :
    Tandem host start tree (fun _ _ _ => True)
      (AnalysisM.changeTree span fun tree => (tree.updateFrame frame change).map ((), ·))
      (AnalysisM.changeTree span' fun tree => (tree.updateFrame frame change).map ((), ·)) := by
  refine imp (changeTree (Q := fun _ _ => True) (fun second matching => ?_) ?_)
    fun _ _ _ _ _ => trivial
  · have updates := matching.updateFrame frame change
    generalize tree.updateFrame frame _ = result, second.updateFrame frame _ = result' at updates
    cases updates with
    | none => exact .none
    | some trees => exact .some (.mk () trees)
  · intro _ after _ updated
    simp only [Option.map_eq_some_iff, Prod.mk.injEq, true_and, exists_eq_right] at updated
    exact ⟨.of_step (steps after updated), trivial⟩

theorem updateFunction {frame : FrameId} {change : FnContext → FnContext}
    (notes : FnContext.Notes change) :
    Tandem host start tree (fun _ _ _ => True)
      (updateFunction span frame change) (updateFunction span' frame change) :=
  updateFrame fun _ updated => .marked notes updated

theorem fillFunction {frame : FrameId} {context : FnContext} {held : Frame}
    (found : tree.frame? frame = some held) (kind : held.kind = .function) :
    Tandem host start tree (fun _ _ _ => True)
      (fillFunction span frame context) (fillFunction span' frame context) :=
  updateFrame fun _ filled => .filled found (by rw [Frame.isFunction, kind]; rfl) filled

theorem fillLoop {frame : FrameId} {arity : Nat} :
    Tandem host start tree (fun _ _ _ => True)
      (fillLoop span frame arity) (fillLoop span' frame arity) :=
  updateFrame fun _ counted => .counted counted

theorem noteSelfCall {target : FrameId} :
    Tandem host start tree (fun _ _ _ => True)
      (noteSelfCall span target) (noteSelfCall span' target) := by
  refine bind (readTree fun second matching => matching.frame?_eq target) ?_
  rintro after frame _ _ ⟨rfl, _, rfl⟩
  dsimp only
  split
  · exact refuse_bind
  · exact updateFunction FnContext.markNamed_notes

/-! ### Names and what is lifted -/

theorem freshName (name : String) :
    Tandem host start tree (fun _ drawn drawn' => drawn = drawn') (freshName name)
      (freshName name) := by
  rintro before before' states rfl
  rw [freshName_ok.mpr ⟨_, rfl, rfl⟩, freshName_ok.mpr ⟨_, rfl, rfl⟩, states.names]
  exact .ok ⟨states.world, states.reached, states.tree, states.built, rfl⟩ (.refl _) rfl

/-- A lift that gives the same entry and the same names, and takes matching trees to matching ones, is
made in tandem. -/
theorem lifting (lift : FrameTree → NameSupply → Option (α × FrameTree × NameSupply))
    (alike : ∀ second names, tree.Matches second →
      Option.Rel (Keyed fun rest rest' => rest.1.Matches rest'.1 ∧ rest.2 = rest'.2)
        (lift tree names) (lift second names))
    (lifts : ∀ names value after rest, lift tree names = some (value, after, rest) →
      tree.Lifts after) :
    Tandem host start tree (fun _ value value' => value = value') (lifting span lift)
      (lifting span' lift) := by
  rintro before before' states rfl
  have here := alike before'.tree before.names states.tree
  generalize lifted : lift before.tree before.names = result,
    lifted' : lift before'.tree before.names = result' at here
  rw [← states.names] at lifted'
  cases here with
  | none =>
    rw [lifting_of_none lifted, lifting_of_none lifted']
    exact .error states (.refl _)
  | some related =>
    obtain ⟨value, trees, names⟩ := related
    have made : before.tree.Builds _ := .of_step (.lifted (lifts _ _ _ _ lifted))
    rw [lifting_ok.mpr ⟨_, _, lifted, rfl⟩, lifting_ok.mpr ⟨_, _, lifted', rfl⟩]
    exact .ok ⟨states.world, states.reached, trees, states.built.trans made, names.symm⟩ made rfl

theorem liftVar {cx : Context} (name : Symbol) :
    Tandem host start tree (fun _ var var' => var = var') (liftVar span cx name)
      (liftVar span' cx name) :=
  lifting (fun tree names => tree.liftVar names cx.frame name)
    (fun _ names matching => matching.liftVar names cx.frame name)
    fun _ _ _ _ lifted => FrameTree.liftVar_lifts lifted

theorem liftConstant {cx : Context} (value : Datum) :
    Tandem host start tree (fun _ constant constant' => constant = constant')
      (liftConstant span cx value) (liftConstant span' cx value) :=
  lifting (fun tree names => tree.liftConstant names cx.frame value)
    (fun _ names matching => matching.liftConstant names cx.frame value)
    fun _ _ _ _ lifted => FrameTree.liftConstant_lifts lifted

/-! ### The host -/

theorem askHost (ask : σ → α) :
    Tandem host start tree (fun after value value' => after = tree ∧ value = value')
      (askHost ask) (askHost ask) := by
  rintro before before' states rfl
  rw [askHost_ok.mpr ⟨rfl, rfl⟩, askHost_ok.mpr ⟨rfl, rfl⟩, states.world]
  exact .ok states (.refl _) ⟨rfl, rfl⟩

theorem runHost {act : StateM σ α}
    (keeps : ∀ world, host.Reaches start world → host.Reaches start (act world).2) :
    Tandem host start tree (fun after value value' => after = tree ∧ value = value')
      (runHost act) (runHost act) := by
  rintro before before' states rfl
  change Finishes host start before.tree _
    (.ok (act before.world).1 { before with world := (act before.world).2 })
    (.ok (act before'.world).1 { before' with world := (act before'.world).2 })
  rw [states.world]
  exact .ok ⟨rfl, keeps _ states.reached, states.tree, states.built, states.names⟩ (.refl _) ⟨rfl, rfl⟩

theorem tryHost {Q : α → β → Prop} {act : EStateM Diagnostic σ α} {act' : EStateM Diagnostic σ β}
    (replies : ∀ world, host.Reaches start world → Replied Q (act world) (act' world))
    (keeps : ∀ world value after, host.Reaches start world → act world = .ok value after →
      host.Reaches start after)
    (loses : ∀ world diagnostic after, host.Reaches start world →
      act world = .error diagnostic after → host.Reaches start after) :
    Tandem host start tree (fun after answer answer' => after = tree ∧ Agree Q answer answer')
      (tryHost act) (tryHost act') := by
  rintro before before' states rfl
  -- An answer of the host and a refusal are both results here; what comes of them is decided later.
  have here := replies before.world states.reached
  generalize acted : act before.world = reply, acted' : act' before.world = reply' at here
  rw [← states.world] at acted'
  cases here with
  | ok related world =>
    rw [tryHost_of_ok acted, tryHost_of_ok acted']
    have reached := keeps _ _ _ states.reached acted
    exact .ok ⟨rfl, reached, states.tree, states.built, states.names⟩ (.refl _) ⟨rfl, .ok related⟩
  | error diagnostic diagnostic' world =>
    rw [tryHost_of_error acted, tryHost_of_error acted']
    have reached := loses _ _ _ states.reached acted
    exact .ok ⟨rfl, reached, states.tree, states.built, states.names⟩ (.refl _) ⟨rfl, .error _ _⟩

/-! ### The stack of macro calls -/

/-- The stacks may differ: nothing but the report of a failure shows them. -/
theorem pushExpansion (call call' : Form) :
    Tandem host start tree (fun after _ _ => after = tree) (pushExpansion call)
      (pushExpansion call') := by
  rintro before before' states rfl
  have matching : (before.pushed call).Matches host start (before'.pushed call') :=
    ⟨states.world, states.reached, states.tree, states.built, states.names⟩
  exact Finishes.ok matching (.refl _) rfl

/-- After the last call is taken off, all is as it was but for the stack. -/
theorem popping {first : AnalysisM σ α} {second : AnalysisM σ β}
    (steps : Tandem host start tree R first second) :
    Tandem host start tree R (finishing popExpansion first) (finishing popExpansion second) := by
  intro before before' states same
  have step := steps before before' states same
  unfold finishing
  generalize first before = result, second before' = result' at step
  cases step with
  | ok states builds related =>
    exact .ok ⟨states.world, states.reached, states.tree, states.built, states.names⟩ builds related
  | error states builds =>
    exact .error ⟨states.world, states.reached, states.tree, states.built, states.names⟩ builds

/-- Noting calls on a diagnostic changes nothing but the diagnostic. -/
theorem noting {first : AnalysisM σ α} {second : AnalysisM σ β}
    (steps : Tandem host start tree R first second) :
    Tandem host start tree R (AnalysisM.noting first) (AnalysisM.noting second) := by
  intro before before' states same
  have step := steps before before' states same
  unfold AnalysisM.noting
  generalize first before = result, second before' = result' at step
  cases step with
  | ok states builds related => exact .ok states builds related
  | @error halt _ halt' _ states builds =>
    cases halt <;> cases halt' <;> exact .error states builds

end Tandem

end LispScope
