import LispScope.Proofs.Progress
import LispScope.Proofs.Transfer

/-!
# Two analyses in step

Two analyses of the same form, in alike states, take the same branches. `Lockstep` says this of two
computations: started over a valid tree and one that is alike, both end with results that are
related, in alike states, or both halt for the same reason. The relation between the results may
depend on the tree that the first run has reached.

A `Regime` is what all runs have in common: something that holds of the state of the host throughout,
and what a run may halt for. There is one rule for each primitive step here; since the first tree is
valid, none of them halts for a broken tree.
-/
namespace LispScope

open AnalysisM

/-- What holds of the host's states throughout, and what an analysis may halt for. -/
structure Regime {σ : Type} (host : Host σ) where
  World : σ → Prop
  Halts : Halt → Prop
  fault : ∀ (fault : Fault) (span : Span), fault.kind ≠ .internalFailure →
    Halts (.refused (fault.diagnose span))
  expansion : ∀ call cause, Halts (.refused (Fault.expansionOf call cause))
  noting : ∀ (diagnostic : Diagnostic) (expansions : List Form), Halts (.refused diagnostic) →
    Halts (.refused (diagnostic.noteExpansions expansions))
  internVar : ∀ name world, World world → World (host.internVar name world).2
  internKeyword : ∀ name world, World world → World (host.internKeyword name world).2
  expanded : ∀ {call world expansion after}, World world →
    host.expandOnce call world = .ok expansion after → World after
  unexpanded : ∀ {call world cause after}, World world →
    host.expandOnce call world = .error cause after → World after
  read : ∀ {text span world forms after}, World world →
    host.readFragment text span world = .ok forms after → World after
  unread : ∀ {text span world diagnostic after}, World world →
    host.readFragment text span world = .error diagnostic after →
      World after ∧ Halts (.refused diagnostic)

/-- The states that a host can come to, whatever it is asked to do. -/
inductive Host.Reaches {σ : Type} (host : Host σ) (start : σ) : σ → Prop
  | start : Reaches host start start
  | internVar (name : Symbol) (reached : Reaches host start world) :
      Reaches host start (host.internVar name world).2
  | internKeyword (name : Symbol) (reached : Reaches host start world) :
      Reaches host start (host.internKeyword name world).2
  | expanded (reached : Reaches host start world)
      (answer : host.expandOnce call world = .ok expansion after) : Reaches host start after
  | unexpanded (reached : Reaches host start world)
      (answer : host.expandOnce call world = .error cause after) : Reaches host start after
  | read (reached : Reaches host start world)
      (answer : host.readFragment text span world = .ok forms after) : Reaches host start after
  | unread (reached : Reaches host start world)
      (answer : host.readFragment text span world = .error diagnostic after) :
      Reaches host start after

/-- Whatever namespaces are asked to do, they only define plain vars and take up keywords. -/
theorem Namespaces.holds_of_reaches {P : Namespaces → Prop} {start spaces : Namespaces}
    (begun : P start) (defined : ∀ spaces symbol, P spaces → P (spaces.defineVar symbol).2)
    (taken : ∀ spaces keywords, P spaces → P { spaces with keywords })
    (reached : Namespaces.host.Reaches start spaces) : P spaces := by
  induction reached with
  | start => exact begun
  | @internVar spaces name _ ih =>
    change P (Namespaces.internVar name spaces).2
    unfold Namespaces.internVar
    split
    · split
      · exact ih
      · exact defined spaces name ih
    · exact defined spaces name ih
  | @internKeyword spaces name _ ih =>
    change P (Namespaces.internKeyword name spaces).2
    unfold Namespaces.internKeyword
    split
    · exact ih
    · exact taken spaces _ ih
  | expanded _ answer ih | unexpanded _ answer ih | read _ answer ih | unread _ answer ih =>
    simp only [Namespaces.host] at answer
    split at answer <;> cases answer
    exact ih

variable {σ : Type} {host : Host σ} {regime : Regime host} {allow : Tolerance} {α β γ δ : Type}

/-- Analyses that begin over a state of the host and may halt for certain reasons: faults of the
input, refused expansions, and what the reader refuses. -/
def Regime.reachable (host : Host σ) (start : σ) (Halts : Halt → Prop)
    (fault : ∀ (fault : Fault) (span : Span), fault.kind ≠ .internalFailure →
      Halts (.refused (fault.diagnose span)))
    (expansion : ∀ call cause, Halts (.refused (Fault.expansionOf call cause)))
    (noting : ∀ (diagnostic : Diagnostic) (expansions : List Form), Halts (.refused diagnostic) →
      Halts (.refused (diagnostic.noteExpansions expansions)))
    (reader : ∀ world text span diagnostic after, host.Reaches start world →
      host.readFragment text span world = .error diagnostic after → Halts (.refused diagnostic)) :
    Regime host where
  World := host.Reaches start
  Halts := Halts
  fault := fault
  expansion := expansion
  noting := noting
  internVar name _ := .internVar name
  internKeyword name _ := .internKeyword name
  expanded := .expanded
  unexpanded := .unexpanded
  read := .read
  unread kept unread := ⟨.unread kept unread, reader _ _ _ _ _ kept unread⟩

/-- States that differ within a tolerance. -/
structure States (regime : Regime host) (allow : Tolerance) (first second : State σ) : Prop where
  world : first.world = second.world
  kept : regime.World first.world
  valid : first.tree.Valid
  settled : second.tree.Settled
  tree : first.tree.Alike allow second.tree
  names : first.names.Alike allow second.names
  expansions : first.expansions = second.expansions

/-- States stay alike when the host moves on. -/
theorem States.moved {first second : State σ} {world : σ}
    (states : States regime allow first second) (kept : regime.World world) :
    States regime allow { first with world } { second with world } :=
  ⟨rfl, kept, states.valid, states.settled, states.tree, states.names, states.expansions⟩

/-- States stay alike when a call is put on both stacks. -/
theorem States.pushed {first second : State σ} (states : States regime allow first second)
    (call : Form) : States regime allow (first.pushed call) (second.pushed call) :=
  ⟨states.world, states.kept, states.valid, states.settled, states.tree, states.names,
    congrArg (· ++ [call]) states.expansions⟩

theorem States.popped {first second : State σ} (states : States regime allow first second) :
    States regime allow first.popped second.popped :=
  ⟨states.world, states.kept, states.valid, states.settled, states.tree, states.names,
    congrArg List.dropLast states.expansions⟩

theorem States.eq {first second : State σ} (states : States regime .strict first second) :
    first = second := by
  have supplies : first.names = second.names := congrArg NameSupply.mk states.names.symm
  have trees := states.tree.eq
  cases first
  cases second
  cases states.world
  cases trees
  cases supplies
  cases states.expansions
  rfl

/-- How two runs from a tree end: alike, or for the same reason. -/
inductive Outcome (regime : Regime host) (allow : Tolerance) (tree : FrameTree)
    (R : FrameTree → α → β → Prop) :
    EStateM.Result Halt (State σ) α → EStateM.Result Halt (State σ) β → Prop
  | ok (states : States regime allow after after') (grows : tree.Grows after.tree)
      (related : R after.tree value value') :
      Outcome regime allow tree R (.ok value after) (.ok value' after')
  | error (states : States regime allow after after') (halts : regime.Halts halt) :
      Outcome regime allow tree R (.error halt after) (.error halt after')

/-- Calls that are noted on a diagnostic are noted on the same one, as the stacks are the same. -/
theorem Outcome.noting {tree : FrameTree} {R : FrameTree → α → β → Prop} {first : AnalysisM σ α}
    {second : AnalysisM σ β} {before before' : State σ}
    (outcome : Outcome regime allow tree R (first before) (second before')) :
    Outcome regime allow tree R (AnalysisM.noting first before)
      (AnalysisM.noting second before') := by
  unfold AnalysisM.noting
  generalize first before = result, second before' = result' at outcome
  cases outcome with
  | ok states grows related => exact .ok states grows related
  | @error after _ halt states halts =>
    cases halt with
    | exhausted => exact .error states halts
    | refused diagnostic =>
      dsimp only
      rw [← states.expansions]
      exact .error states (regime.noting diagnostic after.expansions halts)

/-- A call is taken off both stacks, however the analyses end. -/
theorem Outcome.popping {tree : FrameTree} {R : FrameTree → α → β → Prop} {first : AnalysisM σ α}
    {second : AnalysisM σ β} {before before' : State σ}
    (outcome : Outcome regime allow tree R (first before) (second before')) :
    Outcome regime allow tree R (finishing popExpansion first before)
      (finishing popExpansion second before') := by
  unfold finishing
  generalize first before = result, second before' = result' at outcome
  cases outcome with
  | ok states grows related => exact .ok states.popped grows related
  | error states halts => exact .error states.popped halts

/-- Two computations that go in step from a tree on. -/
def Lockstep (regime : Regime host) (allow : Tolerance) (tree : FrameTree)
    (R : FrameTree → α → β → Prop) (first : AnalysisM σ α) (second : AnalysisM σ β) : Prop :=
  ∀ before before' : State σ, States regime allow before before' → before.tree = tree →
    Outcome regime allow tree R (first before) (second before')

namespace Lockstep

variable {tree : FrameTree} {R : FrameTree → α → β → Prop} {S : FrameTree → γ → δ → Prop}
  {span : Span}

theorem pure {value : α} {value' : β} (related : R tree value value') :
    Lockstep regime allow tree R (pure value) (pure value') := by
  rintro before before' states rfl
  exact .ok states (.refl _) related

/-- Related results are carried on by steps that go in step from the tree reached. -/
theorem bind {first : AnalysisM σ α} {second : AnalysisM σ β} {next : α → AnalysisM σ γ}
    {next' : β → AnalysisM σ δ} (steps : Lockstep regime allow tree R first second)
    (follow : ∀ after value value', tree.Grows after → R after value value' →
      Lockstep regime allow after S (next value) (next' value')) :
    Lockstep regime allow tree S (first >>= next) (second >>= next') := by
  intro before before' states same
  change Outcome regime allow tree S (EStateM.bind first next before) (EStateM.bind second next' before')
  have step := steps before before' states same
  unfold EStateM.bind
  generalize first before = result, second before' = result' at step
  cases step with
  | error states halts => exact .error states halts
  | ok states grows related =>
    have rest := follow _ _ _ grows related _ _ states rfl
    dsimp only
    generalize next _ _ = final, next' _ _ = final' at rest
    cases rest with
    | error states halts => exact .error states halts
    | ok states further related => exact .ok states (grows.trans further) related

theorem refuse {fault : Fault} (apart : fault.kind ≠ .internalFailure) :
    Lockstep regime allow tree R (refuse fault span) (refuse fault span) := by
  rintro before before' states rfl
  exact .error states (regime.fault fault span apart)

/-- Nothing follows on what is refused. -/
theorem refuse_bind {fault : Fault} {next : α → AnalysisM σ γ} {next' : β → AnalysisM σ δ}
    (apart : fault.kind ≠ .internalFailure) : Lockstep regime allow tree S
      (AnalysisM.refuse fault span >>= next) (AnalysisM.refuse fault span >>= next') :=
  bind (R := fun _ _ _ => False) (refuse apart) fun _ _ _ _ impossible => impossible.elim

/-- What is found out without the state is the same in both runs. -/
theorem settle {answer : Except Diagnostic α}
    (faults : ∀ diagnostic, answer = .error diagnostic → regime.Halts (.refused diagnostic)) :
    Lockstep regime allow tree (fun _ value value' => value = value' ∧ answer = .ok value)
      (settle answer) (settle answer) := by
  rintro before before' states rfl
  cases answer with
  | ok value => exact .ok states (.refl _) ⟨rfl, rfl⟩
  | error diagnostic => exact .error states (faults diagnostic rfl)

theorem imp {Q : FrameTree → α → β → Prop} {first : AnalysisM σ α} {second : AnalysisM σ β}
    (steps : Lockstep regime allow tree R first second)
    (weaker : ∀ after value value', R after value value' → Q after value value') :
    Lockstep regime allow tree Q first second := by
  intro before before' states same
  have step := steps before before' states same
  generalize first before = result, second before' = result' at step
  cases step with
  | ok states grows related => exact .ok states grows (weaker _ _ _ related)
  | error states halts => exact .error states halts

/-! ### Reading and changing the tree -/

theorem readTree {ask : FrameTree → Option α} {ask' : FrameTree → Option β} {Q : α → β → Prop}
    (answers : tree.Valid → ∃ value, ask tree = some value)
    (alike : ∀ second, tree.Alike allow second → Option.Rel Q (ask tree) (ask' second)) :
    Lockstep regime allow tree (fun after value value' => after = tree ∧ ask tree = some value ∧
      Q value value') (readTree span ask) (readTree span ask') := by
  rintro before before' states rfl
  obtain ⟨value, found⟩ := answers states.valid
  have here := alike before'.tree states.tree
  rw [found] at here
  generalize found' : ask' before'.tree = answer at here
  cases here with
  | some related =>
    rw [readTree_ok.mpr ⟨found, rfl⟩, readTree_ok.mpr ⟨found', rfl⟩]
    exact .ok states (.refl _) ⟨rfl, found, related⟩

theorem changeTree {change change' : FrameTree → Option (α × FrameTree)} {Q : FrameTree → α → Prop}
    (changes : tree.Valid → ∃ value after, change tree = some (value, after) ∧ after.Valid ∧
      tree.Grows after ∧ Q after value)
    (alike : ∀ second, tree.Settled → second.Settled → tree.Alike allow second →
      Option.Rel (Keyed (FrameTree.Alike allow)) (change tree) (change' second))
    (settles : ∀ second value after, second.Settled → tree.Alike allow second →
      change' second = some (value, after) → after.Settled) :
    Lockstep regime allow tree (fun after value value' => value = value' ∧ Q after value)
      (changeTree span change) (changeTree span change') := by
  rintro before before' states rfl
  obtain ⟨value, after, changed, valid, grows, holds⟩ := changes states.valid
  have here := alike before'.tree states.valid.settled states.settled states.tree
  rw [changed] at here
  generalize changed' : change' before'.tree = answer at here
  cases here with
  | some related =>
    cases related with
    | mk key trees =>
      rw [changeTree_ok.mpr ⟨_, changed, rfl⟩, changeTree_ok.mpr ⟨_, changed', rfl⟩]
      have settled := settles _ _ _ states.settled states.tree changed'
      exact .ok ⟨states.world, states.kept, valid, settled, trees, states.names, states.expansions⟩
        grows ⟨rfl, holds⟩

/-- The same name is resolved to the same in alike trees. -/
theorem resolve {cx : Context} (scope : cx.InScope tree) (boxed : Bool) (name : Symbol) :
    Lockstep regime allow tree (fun after found found' => found = found' ∧
        ∀ target ∈ found, after.Refers cx.frame name target)
      (resolve span cx name) (resolve span { cx with boxed } name) := by
  change Lockstep regime allow tree _ (AnalysisM.resolve span cx name) (AnalysisM.resolve span cx name)
  rintro before before' states rfl
  obtain ⟨lineage, climbed⟩ := states.valid.exists_lineage scope.inRange
  have here := states.tree.lineage cx.frame
  rw [climbed] at here
  generalize climbed' : before'.tree.lineage cx.frame = found at here
  cases here with
  | some lineages =>
    rw [resolve_ok.mpr ⟨⟨_, climbed, rfl⟩, rfl⟩, resolve_ok.mpr ⟨⟨_, climbed', rfl⟩, rfl⟩]
    refine .ok states (.refl _) ⟨(lineages.resolve_eq name).symm, fun target found => ?_⟩
    exact ⟨lineage, climbed, found⟩

/-- A frame is entered in both runs, which know alike contexts from the beginning. -/
theorem entered {opening opening' : Opening} {before before' : State σ}
    {parent inner inner' : FrameId} {after after' : FrameTree}
    (states : States regime allow before before') (openings : Opening.Alike allow opening opening')
    (inRange : parent < before.tree.frames.size)
    (entered : before.tree.enter opening parent = (inner, after))
    (entered' : before'.tree.enter opening' parent = (inner', after')) :
    inner = inner' ∧
      States regime allow { before with tree := after } { before' with tree := after' } := by
  have here := states.tree.enter openings parent
  rw [entered, entered'] at here
  cases here with
  | mk frame trees =>
    have settled := states.settled.of_bindings (FrameTree.enter_some entered').2.1
    exact ⟨rfl, states.world, states.kept, states.valid.enter inRange entered, settled, trees,
      states.names, states.expansions⟩

theorem openFrame {cx : Context} (opening : Opening) (scope : cx.InScope tree) (boxed : Bool)
    (plain : opening.function? = none) :
    Lockstep regime allow tree (fun after frame frame' => frame = frame' ∧
        tree.enter opening cx.frame = (frame, after))
      (openFrame cx opening.kind) (openFrame { cx with boxed } opening.kind) := by
  change Lockstep regime allow tree _ (AnalysisM.openFrame cx opening.kind)
    (AnalysisM.openFrame cx opening.kind)
  rintro before before' states rfl
  have opens (tree : FrameTree) : tree.enter opening cx.frame =
      ((tree.openFrame opening.kind cx.frame).1, (tree.openFrame opening.kind cx.frame).2) :=
    FrameTree.enter_of_openFrame opening rfl plain
  obtain ⟨same, states⟩ := entered states (.plain plain) scope.inRange (opens _) (opens _)
  rw [openFrame_ok.mpr ⟨_, rfl, rfl⟩, openFrame_ok.mpr ⟨_, rfl, rfl⟩]
  exact .ok states (FrameTree.enter_grows (opens _)).1 ⟨same, opens _⟩

/-- Nothing comes between the opening of the frame of a function and the filling in of its context. -/
theorem openFunction_eq (cx : Context) (span : Span) (context : FnContext)
    (next : FrameId → AnalysisM σ γ) (before : State σ) :
    ∃ frame after, before.tree.enter (.function context) cx.frame = (frame, after) ∧
      (AnalysisM.openFrame cx .function >>= fun frame =>
        AnalysisM.fillFunction span frame context >>= fun _ => next frame) before =
          next frame { before with tree := after } := by
  obtain ⟨frame, opened⟩ : ∃ frame, before.tree.openFrame .function cx.frame = frame := ⟨_, rfl⟩
  obtain ⟨frame, between⟩ := frame
  obtain ⟨last, _, size, _⟩ := FrameTree.openFrame_some opened
  obtain ⟨after, filled⟩ := FrameTree.exists_updateFrame
    (show frame < between.frames.size by rw [size, last]; exact Nat.lt_succ_self _)
    (Frame.fillFunction context)
  refine ⟨frame, after, FrameTree.enter_of_fillFunction opened filled, ?_⟩
  have fills : (AnalysisM.fillFunction span frame context : AnalysisM σ Unit)
      { before with tree := between } = .ok () { before with tree := after } :=
    fillFunction_ok.mpr ⟨_, filled, rfl⟩
  rw [bind_of_ok (openFrame_ok.mpr ⟨_, opened, rfl⟩), bind_of_ok fills]

/-- The frame of a function is opened, and its context filled in before anything else happens. -/
theorem openFunction {cx : Context} {context context' : FnContext} {next : FrameId → AnalysisM σ γ}
    {next' : FrameId → AnalysisM σ δ} (scope : cx.InScope tree) (boxed : Bool)
    (contexts : FnContext.Alike allow context context')
    (follow : ∀ after frame, tree.Grows after →
      tree.enter (.function context) cx.frame = (frame, after) →
        Lockstep regime allow after S (next frame) (next' frame)) :
    Lockstep regime allow tree S
      (AnalysisM.openFrame cx .function >>= fun frame =>
        AnalysisM.fillFunction span frame context >>= fun _ => next frame)
      (AnalysisM.openFrame { cx with boxed } .function >>= fun frame =>
        AnalysisM.fillFunction span frame context' >>= fun _ => next' frame) := by
  rintro before before' states rfl
  obtain ⟨frame, after, opened, run⟩ := openFunction_eq cx span context next before
  obtain ⟨_, after', opened', run'⟩ :=
    openFunction_eq { cx with boxed } span context' next' before'
  have openings : Opening.Alike allow (.function context) (.function context') :=
    ⟨rfl, .some contexts⟩
  obtain ⟨rfl, states⟩ := entered states openings scope.inRange opened opened'
  have grows := (FrameTree.enter_grows opened).1
  rw [run, run']
  have rest := follow after frame grows opened _ _ states rfl
  generalize next frame _ = final, next' frame _ = final' at rest
  cases rest with
  | ok states further related => exact .ok states (grows.trans further) related
  | error states halts => exact .error states halts

/-- A change of one frame that leaves the tree in order, and frames alike that are alike. -/
theorem updateFrame {frame : FrameId} {change : Frame → Frame}
    (succeeds : tree.Valid → ∃ after, tree.updateFrame frame change = some after ∧ after.Valid)
    (grows : ∀ after, tree.updateFrame frame change = some after → tree.Grows after)
    (alike : ∀ held held', Frame.Alike allow held held' →
      Frame.Alike allow (change held) (change held')) :
    Lockstep regime allow tree (fun after _ _ => tree.updateFrame frame change = some after)
      (AnalysisM.changeTree span fun tree => (tree.updateFrame frame change).map ((), ·))
      (AnalysisM.changeTree span fun tree => (tree.updateFrame frame change).map ((), ·)) := by
  refine imp (changeTree (Q := fun after _ => tree.updateFrame frame change = some after)
    (fun valid => ?_) (fun second _ _ trees => ?_) ?_) fun _ _ _ held => held.2
  · obtain ⟨after, updated, valid⟩ := succeeds valid
    exact ⟨(), after, by simp [updated], valid, grows after updated, updated⟩
  · have updates : Option.Rel (FrameTree.Alike allow) (tree.updateFrame frame change)
        (second.updateFrame frame change) :=
      trees.updateFrame fun _ _ _ _ frames => alike _ _ frames
    generalize tree.updateFrame frame _ = result, second.updateFrame frame _ = result' at updates
    cases updates with
    | none => exact .none
    | some trees => exact .some (.mk () trees)
  · intro second value after settled trees updated
    simp only [Option.map_eq_some_iff, Prod.mk.injEq, true_and, exists_eq_right] at updated
    obtain ⟨_, _, bindings, _⟩ := FrameTree.updateFrame_some updated
    exact settled.of_bindings bindings

theorem fillLoop {frame : FrameId} {arity : Nat} (inRange : frame < tree.frames.size) :
    Lockstep regime allow tree (fun after _ _ =>
        tree.updateFrame frame (Frame.fillLoop arity) = some after)
      (fillLoop span frame arity) (fillLoop span frame arity) :=
  updateFrame (fun valid => valid.exists_fillLoop inRange arity)
    (fun _ counted => FrameTree.fillLoop_grows counted)
    fun _ _ frames => { frames with loopArity? := rfl }

theorem bindLocal {frame : FrameId} {name : Symbol} {initial initial' : Option Expr}
    {needsBox needsBox' : Bool} (inRange : frame < tree.frames.size)
    (values : Option.Rel (Expr.Alike allow) initial initial')
    (covers : ∀ value ∈ initial, tree.Covers value) (flags : allow.Flag needsBox needsBox') :
    Lockstep regime allow tree (fun _ binding binding' => binding = binding')
      (bindLocal span frame name initial needsBox)
      (bindLocal span frame name initial' needsBox') := by
  refine imp (changeTree (Q := fun _ _ => True) (fun valid => ?_)
    (fun second _ _ alike => alike.bind values flags frame) ?_) fun _ _ _ held => held.1
  · obtain ⟨binding, after, bound, valid⟩ := valid.exists_bind inRange covers name needsBox
    exact ⟨binding, after, bound, valid, (FrameTree.bind_grows bound).1, trivial⟩
  · intro second binding after settled alike bound
    refine settled.bind (fun value given => ?_) bound
    rw [alike.bindings_size]
    cases values with
    | none => cases given
    | some exprs =>
      cases given
      rw [exprs.resultLocals_eq]
      exact covers _ rfl

theorem useBinding {cx : Context} {boxed : Bool} {name : Symbol} {source : BindingId}
    {crossed : List FrameId} (scope : cx.InScope tree) (flags : allow.Flag cx.boxed boxed)
    (refers : tree.Refers cx.frame name ⟨.binding source, crossed⟩) :
    Lockstep regime allow tree (fun after binding binding' => binding = binding' ∧
        binding < after.bindings.size)
      (useBinding span cx ⟨source, crossed⟩) (useBinding span { cx with boxed } ⟨source, crossed⟩) := by
  refine changeTree (fun valid => ?_) (fun second settled settled' alike => ?_) ?_
  · obtain ⟨binding, between, after, captured, noted, valid, known⟩ :=
      valid.exists_use scope.inRange refers cx.boxed
    refine ⟨binding, after, ?_, valid, (FrameTree.use_fills captured noted).grows, known⟩
    simp [captured, noted]
  · have captures := alike.capture settled settled' ⟨source, crossed⟩
    generalize captured : tree.capture ⟨source, crossed⟩ = result,
      captured' : second.capture ⟨source, crossed⟩ = result' at captures
    cases captures with
    | none => exact .none
    | some held =>
      cases held with
      | mk binding trees =>
        have settled := settled.captures (FrameTree.capture_captures captured)
        have settled' := settled'.captures (FrameTree.capture_captures captured')
        change Option.Rel _ (Option.bind (FrameTree.noteUse _ binding cx.boxed) _)
          (Option.bind (FrameTree.noteUse _ binding boxed) _)
        refine optionRel_bind (trees.noteUse settled settled' flags binding) ?_
        exact fun _ _ trees => .some (.mk binding trees)
  · intro second binding after settled alike used
    simp only [Option.bind_eq_bind, Option.bind_eq_some_iff, Option.pure_def, Option.some.injEq,
      Prod.mk.injEq, Prod.exists] at used
    obtain ⟨id, between, captured, _, noted, rfl, rfl⟩ := used
    exact settled.captures (FrameTree.use_captures captured noted)

theorem useSelf {cx : Context} {name : Symbol} {target : FrameId} {crossed : List FrameId}
    (scope : cx.InScope tree) (boxed : Bool)
    (refers : tree.Refers cx.frame name ⟨.self target, crossed⟩) :
    Lockstep regime allow tree (fun after value value' => value = value' ∧
        ∃ frame, after.frame? target = some frame ∧ frame.function?.isSome = true)
      (useSelf span cx ⟨target, crossed⟩) (useSelf span { cx with boxed } ⟨target, crossed⟩) := by
  refine changeTree (fun valid => ?_) (fun second _ _ alike => ?_) ?_
  · obtain ⟨⟨frame, held, _, known⟩, after, taken, valid⟩ :=
      valid.exists_captureSelf scope.inRange refers
    have fills := FrameTree.captureSelf_fills taken
    obtain ⟨filled, held, same⟩ := fills.frames _ _ held
    exact ⟨(), after, by simp [taken], valid, fills.grows, filled, held, same.function? ▸ known⟩
  · have selves := alike.captureSelf cx.frame ⟨target, crossed⟩
    generalize tree.captureSelf cx.frame _ = result, second.captureSelf cx.frame _ = result' at selves
    cases selves with
    | none => exact .none
    | some trees => exact .some (.mk () trees)
  · intro second value after settled alike taken
    simp only [Option.map_eq_some_iff, Prod.mk.injEq, true_and, exists_eq_right] at taken
    exact settled.captures (FrameTree.captureSelf_captures taken)

theorem updateFunction {frame : FrameId} {change : FnContext → FnContext}
    (inRange : frame < tree.frames.size) (notes : FnContext.Notes change)
    (uniform : ∀ context uniqueName,
      change { context with uniqueName } = { change context with uniqueName }) :
    Lockstep regime allow tree (fun _ _ _ => True)
      (updateFunction span frame change) (updateFunction span frame change) :=
  imp (updateFrame (fun valid => valid.exists_updateFunction inRange notes)
    (fun _ updated => (FrameTree.updateFunction_grows notes updated).1)
    fun _ _ frames => frames.updateFunction notes uniform) fun _ _ _ _ => trivial

/-- A self call is noted on a function that is known. -/
theorem noteSelfCall {target : FrameId} {frame : Frame} (held : tree.frame? target = some frame)
    (known : frame.function?.isSome = true) :
    Lockstep regime allow tree (fun _ _ _ => True) (noteSelfCall span target)
      (noteSelfCall span target) := by
  unfold LispScope.noteSelfCall
  refine bind (readTree (Q := Frame.Alike allow) (fun _ => ⟨frame, held⟩)
    fun second alike => alike.frames target) ?_
  rintro _ found found' _ ⟨rfl, present, frames⟩
  cases held.symm.trans present
  have contexts := frames.function?
  have known' : found'.function?.isSome = true := by
    generalize frame.function? = context, found'.function? = context' at contexts known
    cases contexts with
    | some _ => rfl
    | none => cases known
  rw [if_neg (by simpa using Option.isSome_iff_ne_none.mp known),
    if_neg (by simpa using Option.isSome_iff_ne_none.mp known')]
  exact updateFunction (FrameTree.frame?_lt held) FnContext.markNamed_notes fun _ _ => rfl

/-! ### Names and what is lifted -/

theorem freshName {name : String} :
    Lockstep regime allow tree (fun _ => allow.Name) (freshName name) (freshName name) := by
  rintro before before' states rfl
  obtain ⟨drawn, moved⟩ := states.names.fresh name
  rw [freshName_ok.mpr ⟨_, rfl, rfl⟩, freshName_ok.mpr ⟨_, rfl, rfl⟩]
  exact .ok ⟨states.world, states.kept, states.valid, states.settled, states.tree, moved,
    states.expansions⟩ (.refl _) drawn

/-- A lift that succeeds in both runs, with entries that are alike. -/
theorem lifting {E : α → α → Prop}
    {lift : FrameTree → NameSupply → Option (α × FrameTree × NameSupply)}
    (succeeds : ∀ names, tree.Valid →
      ∃ value after rest, lift tree names = some (value, after, rest) ∧ after.Valid)
    (alike : ∀ second names names', FrameTree.Alike allow tree second → names.Alike allow names' →
      Option.Rel (Lifted E allow) (lift tree names) (lift second names'))
    (lifts : ∀ first names value after rest, lift first names = some (value, after, rest) →
      first.Lifts after) :
    Lockstep regime allow tree (fun _ => E) (lifting span lift) (lifting span lift) := by
  rintro before before' states rfl
  obtain ⟨value, after, rest, lifted, valid⟩ := succeeds before.names states.valid
  have here := alike before'.tree before.names before'.names states.tree states.names
  rw [lifted] at here
  generalize lifted' : lift before'.tree before'.names = result at here
  cases here with
  | some held =>
    rw [lifting_ok.mpr ⟨_, _, lifted, rfl⟩, lifting_ok.mpr ⟨_, _, lifted', rfl⟩]
    have settled := states.settled.of_bindings (lifts _ _ _ _ _ lifted').bindings
    exact .ok ⟨states.world, states.kept, valid, settled, held.tree, held.names, states.expansions⟩
      (lifts _ _ _ _ _ lifted).fills.grows held.entry

theorem liftVar {cx : Context} (scope : cx.InScope tree) (boxed : Bool) (name : Symbol) :
    Lockstep regime allow tree (fun _ => LiftedVar.Alike allow) (liftVar span cx name)
      (liftVar span { cx with boxed } name) := by
  rw [liftVar_eq, liftVar_eq]
  exact lifting (fun names valid => valid.exists_liftVar scope.inRange names name)
    (fun _ _ _ trees names => trees.liftVar names cx.frame name)
    fun _ _ _ _ _ lifted => FrameTree.liftVar_lifts lifted

theorem liftConstant {cx : Context} (scope : cx.InScope tree) (boxed : Bool) (value : Datum) :
    Lockstep regime allow tree (fun _ => LiftedConstant.Alike allow) (liftConstant span cx value)
      (liftConstant span { cx with boxed } value) := by
  rw [liftConstant_eq, liftConstant_eq]
  exact lifting (fun names valid => valid.exists_liftConstant scope.inRange names value)
    (fun _ _ _ trees names => trees.liftConstant names cx.frame value)
    fun _ _ _ _ _ lifted => FrameTree.liftConstant_lifts lifted

/-! ### The host -/

/-- The host is in the same state in both runs, so it answers the same. -/
theorem askHost {ask : σ → α} : Lockstep regime allow tree (fun _ value value' => value = value')
    (askHost ask) (askHost ask) := by
  rintro before before' states rfl
  rw [askHost_ok.mpr ⟨rfl, rfl⟩, askHost_ok.mpr ⟨rfl, rfl⟩]
  exact .ok states (.refl _) (by rw [states.world])

/-- What the host was asked is known of the state it was asked in. -/
theorem askHost_bind {ask : σ → α} {next : α → AnalysisM σ γ} {next' : α → AnalysisM σ δ}
    (follow : ∀ before before' : State σ, States regime allow before before' → before.tree = tree →
      Outcome regime allow tree S (next (ask before.world) before) (next' (ask before.world) before')) :
    Lockstep regime allow tree S (AnalysisM.askHost ask >>= next) (AnalysisM.askHost ask >>= next') := by
  intro before before' states same
  have step := follow before before' states same
  have second : (AnalysisM.askHost ask >>= next') before' = next' (ask before.world) before' := by
    rw [states.world]
    rfl
  rw [second]
  exact step

theorem runHost {act : StateM σ α} (keeps : ∀ world, regime.World world → regime.World (act world).2) :
    Lockstep regime allow tree (fun _ value value' => value = value') (runHost act) (runHost act) := by
  rintro before before' states rfl
  change Outcome regime allow before.tree _
    (.ok (act before.world).1 { before with world := (act before.world).2 })
    (.ok (act before'.world).1 { before' with world := (act before'.world).2 })
  rw [← states.world]
  exact .ok (states.moved (keeps _ states.kept)) (.refl _) rfl

/-- The host tries the same in both runs. -/
theorem tryHost {act : EStateM Diagnostic σ α}
    (keeps : ∀ world value after, regime.World world → act world = .ok value after →
      regime.World after)
    (loses : ∀ world diagnostic after, regime.World world → act world = .error diagnostic after →
      regime.World after) :
    Lockstep regime allow tree (fun _ answer answer' => answer = answer' ∧ ∃ world,
        regime.World world ∧
        ((∃ value after, act world = .ok value after ∧ answer = .ok value) ∨
          ∃ diagnostic after, act world = .error diagnostic after ∧ answer = .error diagnostic))
      (tryHost act) (tryHost act) := by
  rintro before before' states rfl
  cases acted : act before.world with
  | ok value world =>
    rw [tryHost_of_ok acted, tryHost_of_ok (states.world ▸ acted)]
    refine .ok (states.moved (keeps _ _ _ states.kept acted)) (.refl _) ⟨rfl, _, states.kept, ?_⟩
    exact .inl ⟨value, world, acted, rfl⟩
  | error diagnostic world =>
    rw [tryHost_of_error acted, tryHost_of_error (states.world ▸ acted)]
    refine .ok (states.moved (loses _ _ _ states.kept acted)) (.refl _) ⟨rfl, _, states.kept, ?_⟩
    exact .inr ⟨diagnostic, world, acted, rfl⟩

end Lockstep

end LispScope
