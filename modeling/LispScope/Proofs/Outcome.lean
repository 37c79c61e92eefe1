import LispScope.Analysis
import Mathlib

/-!
# Steps that succeed

An analysis that gives a result went through steps that all gave one. Each primitive step is
described here by what it means that it succeeded: `bind_ok` takes a run apart at its first step, and
the lemmas after it say what the step read and changed. What the host answers and how its state
moves on is left out, since no scope depends on it.
-/
namespace LispScope

namespace AnalysisM

variable {σ α β : Type}

theorem bind_ok {first : AnalysisM σ α} {next : α → AnalysisM σ β} {before after : State σ}
    {result : β} : (first >>= next) before = .ok result after ↔
      ∃ value between, first before = .ok value between ∧ next value between = .ok result after := by
  -- Both the first step and the one that it leads to have to succeed.
  change EStateM.bind first next before = _ ↔ _
  unfold EStateM.bind
  cases first before with
  | ok value between =>
    constructor
    · exact fun finished => ⟨value, between, rfl, finished⟩
    · rintro ⟨_, _, taken, finished⟩
      cases taken
      exact finished
  | error halt between => simp

theorem bind_of_ok {first : AnalysisM σ α} {next : α → AnalysisM σ β} {before between : State σ}
    {value : α} (taken : first before = .ok value between) :
    (first >>= next) before = next value between := by
  change EStateM.bind first next before = _
  simp only [EStateM.bind, taken]

theorem bind_of_error {first : AnalysisM σ α} {next : α → AnalysisM σ β} {before after : State σ}
    {halt : Halt} (failed : first before = .error halt after) :
    (first >>= next) before = .error halt after := by
  change EStateM.bind first next before = _
  simp only [EStateM.bind, failed]

theorem pure_ok {value result : α} {before after : State σ} :
    (pure value : AnalysisM σ α) before = .ok result after ↔ value = result ∧ before = after := by
  change EStateM.Result.ok value before = _ ↔ _
  simp

theorem map_ok {change : α → β} {first : AnalysisM σ α} {result : β} {before after : State σ} :
    (change <$> first) before = .ok result after ↔
      ∃ value, first before = .ok value after ∧ change value = result := by
  change EStateM.map change first before = _ ↔ _
  unfold EStateM.map
  cases first before with
  | ok value between =>
    constructor
    · intro run
      cases run
      exact ⟨value, rfl, rfl⟩
    · rintro ⟨_, taken, rfl⟩
      cases taken
      rfl
  | error halt between => simp

theorem throw_ok {halt : Halt} {result : α} {before after : State σ} :
    (throw halt : AnalysisM σ α) before = .ok result after ↔ False := by
  change EStateM.Result.error halt before = _ ↔ _
  simp

theorem get_ok {before after result : State σ} :
    (get : AnalysisM σ (State σ)) before = .ok result after ↔ before = result ∧ before = after := by
  change EStateM.Result.ok before before = _ ↔ _
  simp

theorem set_ok {state before after : State σ} {result : PUnit} :
    (set state : AnalysisM σ PUnit) before = .ok result after ↔ after = state := by
  change EStateM.Result.ok _ state = _ ↔ _
  simp [eq_comm]

theorem modify_ok {change : State σ → State σ} {before after : State σ} {result : PUnit} :
    (modify change : AnalysisM σ PUnit) before = .ok result after ↔ after = change before := by
  change EStateM.Result.ok _ (change before) = _ ↔ _
  simp [eq_comm]

theorem refuse_ok {fault : Fault} {span : Span} {result : α} {before after : State σ} :
    (refuse fault span : AnalysisM σ α) before = .ok result after ↔ False :=
  throw_ok

theorem settle_ok {answer : Except Diagnostic α} {result : α} {before after : State σ} :
    (settle answer : AnalysisM σ α) before = .ok result after ↔
      answer = .ok result ∧ after = before := by
  cases answer with
  | ok value => simp [settle, pure_ok, eq_comm]
  | error diagnostic => simp [settle, throw_ok]

theorem demand_ok {span : Span} {answer : Option α} {result : α} {before after : State σ} :
    (demand span answer : AnalysisM σ α) before = .ok result after ↔
      answer = some result ∧ after = before := by
  cases answer with
  | some value => simp [demand, pure_ok, eq_comm]
  | none => simp [demand, refuse_ok]

theorem readTree_ok {span : Span} {ask : FrameTree → Option α} {result : α}
    {before after : State σ} : (readTree span ask : AnalysisM σ α) before = .ok result after ↔
      ask before.tree = some result ∧ after = before := by
  simp only [readTree, bind_ok, get_ok, demand_ok]
  constructor
  · rintro ⟨_, _, ⟨rfl, rfl⟩, found, same⟩
    exact ⟨found, same⟩
  · rintro ⟨found, same⟩
    exact ⟨_, _, ⟨rfl, rfl⟩, found, same⟩

theorem changeTree_ok {span : Span} {change : FrameTree → Option (α × FrameTree)} {result : α}
    {before after : State σ} : (changeTree span change : AnalysisM σ α) before = .ok result after ↔
      ∃ tree, change before.tree = some (result, tree) ∧ after = { before with tree } := by
  simp only [changeTree, bind_ok, get_ok, demand_ok, modify_ok, pure_ok]
  constructor
  · rintro ⟨_, _, ⟨rfl, rfl⟩, ⟨value, tree⟩, _, ⟨found, rfl⟩, _, _, rfl, rfl, rfl⟩
    exact ⟨tree, found, rfl⟩
  · rintro ⟨tree, found, rfl⟩
    exact ⟨_, _, ⟨rfl, rfl⟩, (result, tree), _, ⟨found, rfl⟩, ⟨⟩, _, rfl, rfl, rfl⟩

/-- What is asked of the tables and not found there is refused. -/
theorem readTree_of_none {span : Span} {ask : FrameTree → Option α} {before : State σ}
    (missing : ask before.tree = none) : (readTree span ask : AnalysisM σ α) before =
      .error (.refused (Fault.brokenScopes.diagnose span)) before := by
  change (demand span (ask before.tree) : AnalysisM σ α) before = _
  rw [missing]
  rfl

/-- A change that fails is refused and leaves the state as it is. -/
theorem changeTree_of_none {span : Span} {change : FrameTree → Option (α × FrameTree)}
    {before : State σ} (missing : change before.tree = none) :
    (changeTree span change : AnalysisM σ α) before =
      .error (.refused (Fault.brokenScopes.diagnose span)) before := by
  change EStateM.bind (demand span (change before.tree)) _ before = _
  rw [missing]
  rfl

theorem askHost_ok {ask : σ → α} {result : α} {before after : State σ} :
    (askHost ask : AnalysisM σ α) before = .ok result after ↔
      ask before.world = result ∧ after = before := by
  simp only [askHost, bind_ok, get_ok, pure_ok]
  constructor
  · rintro ⟨_, _, ⟨rfl, rfl⟩, answer, rfl⟩
    exact ⟨answer, rfl⟩
  · rintro ⟨answer, rfl⟩
    exact ⟨_, _, ⟨rfl, rfl⟩, answer, rfl⟩

theorem runHost_ok {act : StateM σ α} {result : α} {before after : State σ} :
    (runHost act : AnalysisM σ α) before = .ok result after ↔
      ∃ world, act before.world = (result, world) ∧ after = { before with world } := by
  change EStateM.Result.ok (act before.world).1 { before with world := (act before.world).2 } = _ ↔ _
  constructor
  · intro run
    cases run
    exact ⟨_, rfl, rfl⟩
  · rintro ⟨world, acted, rfl⟩
    rw [acted]

/-- Whatever the host answers, it leaves frames, names and the stack alone. -/
theorem tryHost_ok {act : EStateM Diagnostic σ α} {result : Except Diagnostic α}
    {before after : State σ} (run : (tryHost act : AnalysisM σ _) before = .ok result after) :
    after.tree = before.tree ∧ after.names = before.names ∧ after.expansions = before.expansions := by
  simp only [tryHost, bind_ok, get_ok] at run
  obtain ⟨_, _, ⟨rfl, rfl⟩, run⟩ := run
  cases acted : act before.world with
  | ok value world =>
    simp only [acted, bind_ok, modify_ok, pure_ok] at run
    obtain ⟨_, _, rfl, _, rfl⟩ := run
    exact ⟨rfl, rfl, rfl⟩
  | error diagnostic world =>
    simp only [acted, bind_ok, modify_ok, pure_ok] at run
    obtain ⟨_, _, rfl, _, rfl⟩ := run
    exact ⟨rfl, rfl, rfl⟩

@[simp] theorem popped_pushed (state : State σ) (call : Form) : (state.pushed call).popped = state := by
  simp [State.pushed, State.popped]

@[simp] theorem pushed_tree (state : State σ) (call : Form) :
    (state.pushed call).tree = state.tree := rfl

@[simp] theorem pushed_names (state : State σ) (call : Form) :
    (state.pushed call).names = state.names := rfl

theorem pushExpansion_ok {call : Form} {result : Unit} {before after : State σ} :
    (pushExpansion call : AnalysisM σ Unit) before = .ok result after ↔
      after = before.pushed call :=
  modify_ok

theorem popExpansion_ok {result : Unit} {before after : State σ} :
    (popExpansion : AnalysisM σ Unit) before = .ok result after ↔
      after = before.popped :=
  modify_ok

theorem noting_ok {analysis : AnalysisM σ α} {result : α} {before after : State σ} :
    noting analysis before = .ok result after ↔ analysis before = .ok result after := by
  unfold noting
  split
  -- Only a refusal is changed, by the calls that were being expanded.
  next refused => simp [refused]
  next => rfl

theorem finishing_ok {last : AnalysisM σ Unit} {analysis : AnalysisM σ α} {result : α}
    {before after : State σ} : finishing last analysis before = .ok result after ↔
      ∃ between, analysis before = .ok result between ∧ last between = .ok () after := by
  unfold finishing
  cases analysis before with
  | ok value between =>
    simp only [bind_ok, pure_ok]
    constructor
    · rintro ⟨_, _, finished, rfl, rfl⟩
      exact ⟨between, rfl, finished⟩
    · rintro ⟨_, run, finished⟩
      cases run
      exact ⟨(), after, finished, rfl, rfl⟩
  | error halt between => simp [bind_ok, throw_ok]

theorem freshName_ok {name result : String} {before after : State σ} :
    (freshName name : AnalysisM σ String) before = .ok result after ↔
      ∃ names, before.names.fresh name = (result, names) ∧ after = { before with names } := by
  simp only [freshName, bind_ok, get_ok, modify_ok, pure_ok]
  constructor
  · rintro ⟨_, _, ⟨rfl, rfl⟩, _, _, rfl, rfl, rfl⟩
    exact ⟨_, rfl, rfl⟩
  · rintro ⟨names, drawn, rfl⟩
    refine ⟨_, _, ⟨rfl, rfl⟩, ⟨⟩, _, rfl, ?_, ?_⟩ <;> rw [drawn]

theorem openFrame_ok {cx : Context} {kind : FrameKind} {result : FrameId}
    {before after : State σ} : (openFrame cx kind : AnalysisM σ FrameId) before = .ok result after ↔
      ∃ tree, before.tree.openFrame kind cx.frame = (result, tree) ∧
        after = { before with tree } := by
  change EStateM.Result.ok _ _ = _ ↔ _
  constructor
  · intro run
    cases run
    exact ⟨_, rfl, rfl⟩
  · rintro ⟨tree, opened, rfl⟩
    cases opened
    rfl

theorem resolve_ok {span : Span} {cx : Context} {name : Symbol} {result : Option (Found Referent)}
    {before after : State σ} :
    (resolve span cx name : AnalysisM σ _) before = .ok result after ↔
      (∃ lineage, before.tree.lineage cx.frame = some lineage ∧ lineage.resolve name = result) ∧
        after = before := by
  simp [resolve, readTree_ok]

theorem useBinding_ok {span : Span} {cx : Context} {found : Found BindingId} {result : BindingId}
    {before after : State σ} :
    (useBinding span cx found : AnalysisM σ BindingId) before = .ok result after ↔
      ∃ captured tree, before.tree.capture found = some (result, captured) ∧
        captured.noteUse result cx.boxed = some tree ∧ after = { before with tree } := by
  simp only [useBinding, changeTree_ok, Option.bind_eq_bind, Option.pure_def,
    Option.bind_eq_some_iff, Option.some.injEq, Prod.mk.injEq, Prod.exists]
  constructor
  · rintro ⟨tree, ⟨id, captured, taken, _, noted, rfl, rfl⟩, rfl⟩
    exact ⟨captured, _, taken, noted, rfl⟩
  · rintro ⟨captured, tree, taken, noted, rfl⟩
    exact ⟨tree, ⟨result, captured, taken, tree, noted, rfl, rfl⟩, rfl⟩

theorem useSelf_ok {span : Span} {cx : Context} {found : Found FrameId} {result : Unit}
    {before after : State σ} :
    (useSelf span cx found : AnalysisM σ Unit) before = .ok result after ↔
      ∃ tree, before.tree.captureSelf cx.frame found = some tree ∧ after = { before with tree } := by
  simp [useSelf, changeTree_ok]

theorem updateFunction_ok {span : Span} {frame : FrameId} {change : FnContext → FnContext}
    {result : Unit} {before after : State σ} :
    (updateFunction span frame change : AnalysisM σ Unit) before = .ok result after ↔
      ∃ tree, before.tree.updateFrame frame (Frame.updateFunction change) = some tree ∧
        after = { before with tree } := by
  simp [updateFunction, changeTree_ok]

theorem fillFunction_ok {span : Span} {frame : FrameId} {context : FnContext} {result : Unit}
    {before after : State σ} :
    (fillFunction span frame context : AnalysisM σ Unit) before = .ok result after ↔
      ∃ tree, before.tree.updateFrame frame (Frame.fillFunction context) = some tree ∧
        after = { before with tree } := by
  simp [fillFunction, changeTree_ok]

theorem fillLoop_ok {span : Span} {frame : FrameId} {arity : Nat} {result : Unit}
    {before after : State σ} :
    (fillLoop span frame arity : AnalysisM σ Unit) before = .ok result after ↔
      ∃ tree, before.tree.updateFrame frame (Frame.fillLoop arity) = some tree ∧
        after = { before with tree } := by
  simp [fillLoop, changeTree_ok]

/-- Lifts something and takes over the frames and the names that come of it. -/
def lifting (span : Span) (lift : FrameTree → NameSupply → Option (α × FrameTree × NameSupply)) :
    AnalysisM σ α := do
  let state ← get
  let (lifted, tree, names) ← demand span (lift state.tree state.names)
  set { state with tree, names }
  return lifted

theorem lifting_ok {span : Span} {lift : FrameTree → NameSupply → Option (α × FrameTree × NameSupply)}
    {result : α} {before after : State σ} :
    (lifting span lift : AnalysisM σ α) before = .ok result after ↔
      ∃ tree names, lift before.tree before.names = some (result, tree, names) ∧
        after = { before with tree, names } := by
  simp only [lifting, bind_ok, get_ok, demand_ok, set_ok, pure_ok]
  constructor
  · rintro ⟨_, _, ⟨rfl, rfl⟩, ⟨lifted, tree, names⟩, _, ⟨found, rfl⟩, _, _, rfl, rfl, rfl⟩
    exact ⟨tree, names, found, rfl⟩
  · rintro ⟨tree, names, found, rfl⟩
    exact ⟨_, _, ⟨rfl, rfl⟩, (result, tree, names), _, ⟨found, rfl⟩, ⟨⟩, _, rfl, rfl, rfl⟩

theorem lifting_of_none {span : Span}
    {lift : FrameTree → NameSupply → Option (α × FrameTree × NameSupply)} {before : State σ}
    (missing : lift before.tree before.names = none) : (lifting span lift : AnalysisM σ α) before =
      .error (.refused (Fault.brokenScopes.diagnose span)) before := by
  change EStateM.bind (demand span (lift before.tree before.names)) _ before = _
  rw [missing]
  rfl

theorem liftVar_eq {span : Span} {cx : Context} {name : Symbol} :
    (liftVar span cx name : AnalysisM σ LiftedVar) =
      lifting span fun tree names => tree.liftVar names cx.frame name := rfl

theorem liftConstant_eq {span : Span} {cx : Context} {value : Datum} :
    (liftConstant span cx value : AnalysisM σ LiftedConstant) =
      lifting span fun tree names => tree.liftConstant names cx.frame value := rfl

theorem liftVar_ok {span : Span} {cx : Context} {name : Symbol} {result : LiftedVar}
    {before after : State σ} :
    (liftVar span cx name : AnalysisM σ LiftedVar) before = .ok result after ↔
      ∃ tree names, before.tree.liftVar before.names cx.frame name = some (result, tree, names) ∧
        after = { before with tree, names } := by
  rw [liftVar_eq, lifting_ok]

theorem liftConstant_ok {span : Span} {cx : Context} {value : Datum} {result : LiftedConstant}
    {before after : State σ} :
    (liftConstant span cx value : AnalysisM σ LiftedConstant) before = .ok result after ↔
      ∃ tree names, before.tree.liftConstant before.names cx.frame value = some (result, tree, names) ∧
        after = { before with tree, names } := by
  rw [liftConstant_eq, lifting_ok]

theorem tryHost_of_ok {act : EStateM Diagnostic σ α} {before : State σ} {value : α} {world : σ}
    (acted : act before.world = .ok value world) :
    (tryHost act : AnalysisM σ _) before = .ok (.ok value) { before with world } := by
  simp only [tryHost, bind_ok, get_ok]
  refine ⟨_, _, ⟨rfl, rfl⟩, ?_⟩
  simp only [acted, bind_ok, modify_ok, pure_ok]
  exact ⟨(), _, rfl, trivial, rfl⟩

theorem tryHost_of_error {act : EStateM Diagnostic σ α} {before : State σ} {diagnostic : Diagnostic}
    {world : σ} (acted : act before.world = .error diagnostic world) :
    (tryHost act : AnalysisM σ _) before = .ok (.error diagnostic) { before with world } := by
  simp only [tryHost, bind_ok, get_ok]
  refine ⟨_, _, ⟨rfl, rfl⟩, ?_⟩
  simp only [acted, bind_ok, modify_ok, pure_ok]
  exact ⟨(), _, rfl, trivial, rfl⟩

theorem tryHost_bind_of_ok {act : EStateM Diagnostic σ α} {next : Except Diagnostic α → AnalysisM σ β}
    {before : State σ} {value : α} {world : σ} (acted : act before.world = .ok value world) :
    (tryHost act >>= next) before = next (.ok value) { before with world } :=
  bind_of_ok (tryHost_of_ok acted)

theorem tryHost_bind_of_error {act : EStateM Diagnostic σ α}
    {next : Except Diagnostic α → AnalysisM σ β} {before : State σ} {diagnostic : Diagnostic}
    {world : σ} (acted : act before.world = .error diagnostic world) :
    (tryHost act >>= next) before = next (.error diagnostic) { before with world } :=
  bind_of_ok (tryHost_of_error acted)

/-- A call of a function by itself is noted where the function is known. -/
theorem noteSelfCall_ok {span : Span} {target : FrameId} {result : Unit} {before after : State σ} :
    (noteSelfCall span target : AnalysisM σ Unit) before = .ok result after ↔
      ∃ held context tree, before.tree.frame? target = some held ∧ held.function? = some context ∧
        before.tree.updateFrame target (Frame.updateFunction fun context =>
          { context with isNamedRecursive := true }) = some tree ∧
        after = { before with tree } := by
  simp only [noteSelfCall, bind_ok, readTree_ok]
  constructor
  · rintro ⟨held, _, ⟨found, rfl⟩, run⟩
    cases known : held.function? with
    | none => simp [known, bind_ok, refuse_ok] at run
    | some context =>
      simp only [known, Option.isNone_some, Bool.false_eq_true, if_false, updateFunction_ok] at run
      obtain ⟨tree, marked, rfl⟩ := run
      exact ⟨held, context, tree, found, known, marked, rfl⟩
  · rintro ⟨held, context, tree, found, known, marked, rfl⟩
    refine ⟨held, before, ⟨found, rfl⟩, ?_⟩
    simp only [known, Option.isNone_some, Bool.false_eq_true, if_false, updateFunction_ok]
    exact ⟨tree, marked, rfl⟩

/-- What is left of a macro call when the analysis of its expansion has ended: the open calls are noted on
a diagnostic, and the call is taken off the stack. -/
def closed : EStateM.Result Halt (State σ) α → EStateM.Result Halt (State σ) α
  | .ok value state => .ok value state.popped
  | .error .exhausted state => .error .exhausted state.popped
  | .error (.refused diagnostic) state =>
    .error (.refused (diagnostic.noteExpansions state.expansions)) state.popped

theorem finishing_noting (analysis : AnalysisM σ α) (state : State σ) :
    finishing popExpansion (noting analysis) state = closed (analysis state) := by
  unfold finishing noting
  cases analysis state with
  | ok value after => rfl
  | error halt after => cases halt <;> rfl

section

variable {analyzer : Analyzer σ} {self : Recursion σ} {cx : Context} {call : Form} {before : State σ}

/-- A macro call ends as its expansion does, which is analyzed with the call on the stack. -/
theorem analyzeMacroCall_eq : analyzeMacroCall analyzer self cx call before =
    closed (analyzeExpansion analyzer self cx call (before.pushed call)) :=
  finishing_noting _ _

theorem analyzeExpansion_of_ok {expansion : Form} {world : σ}
    (expanded : analyzer.host.expandOnce call before.world = .ok expansion world) :
    analyzeExpansion analyzer self cx call before = self cx expansion { before with world } :=
  tryHost_bind_of_ok expanded

theorem analyzeExpansion_of_error {cause : Diagnostic} {world : σ}
    (unexpanded : analyzer.host.expandOnce call before.world = .error cause world) :
    analyzeExpansion analyzer self cx call before =
      .error (.refused (Fault.expansionOf call cause)) { before with world } :=
  tryHost_bind_of_error unexpanded

end

end AnalysisM

/-- A result that can be read off an outcome is that of a success. -/
theorem ok_of_toOption {ε α : Type} {outcome : Except ε α} {value : α}
    (found : outcome.toOption = some value) : outcome = .ok value := by
  cases outcome <;> cases found
  rfl

end LispScope
