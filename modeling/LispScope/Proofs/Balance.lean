import LispScope.Analysis
import LispScope.Proofs.Outcome

/-!
# The stack of macro calls

Main statement: `analyzeForm_balanced`. The analysis of a form leaves the macro calls on the stack as it
found them, whether it comes to a result or not.

Only a macro call touches the stack. It is taken off on every way out, and what happens while it is on
the stack is balanced itself: its expansion is analyzed the way all other forms are. Everything else is
put together from steps that leave the stack alone.
-/
namespace LispScope

open AnalysisM

variable {σ α β : Type}

/-- The state in which a computation ends. -/
def AnalysisM.final : EStateM.Result Halt (State σ) α → State σ
  | .ok _ state => state
  | .error _ state => state

/-- A computation leaves the stack as it found it, whatever comes of it. -/
def Balanced (run : AnalysisM σ α) : Prop :=
  ∀ before, (final (run before)).expansions = before.expansions

/-- A way of analyzing forms that leaves the stack alone. -/
def Recursion.Balanced (self : Recursion σ) : Prop := ∀ cx form, LispScope.Balanced (self cx form)

namespace Balanced

theorem ok {run : AnalysisM σ α} {value : α} {before after : State σ} (balanced : Balanced run)
    (given : run before = .ok value after) : after.expansions = before.expansions := by
  have kept := balanced before
  rw [given] at kept
  exact kept

theorem error {run : AnalysisM σ α} {halt : Halt} {before after : State σ} (balanced : Balanced run)
    (failed : run before = .error halt after) : after.expansions = before.expansions := by
  have kept := balanced before
  rw [failed] at kept
  exact kept

/-! ### Steps -/

theorem pure {value : α} : Balanced (pure value : AnalysisM σ α) := fun _ => rfl

theorem throw {halt : Halt} : Balanced (throw halt : AnalysisM σ α) := fun _ => rfl

theorem modify {change : State σ → State σ}
    (keeps : ∀ state, (change state).expansions = state.expansions) :
    Balanced (modify change : AnalysisM σ PUnit) := keeps

theorem bind {first : AnalysisM σ α} {next : α → AnalysisM σ β} (steps : Balanced first)
    (follow : ∀ value, Balanced (next value)) : Balanced (first >>= next) := by
  intro before
  have kept := steps before
  cases run : first before with
  | ok value between =>
    rw [run] at kept
    rw [bind_of_ok run]
    exact (follow value between).trans kept
  | error halt after =>
    rw [run] at kept
    rw [bind_of_error run]
    exact kept

/-- What the next step is may depend on the state. -/
theorem get_bind {next : State σ → AnalysisM σ β} (follow : ∀ state, Balanced (next state)) :
    Balanced (get >>= next) :=
  .bind (fun _ => rfl) follow

theorem mapM {step : α → AnalysisM σ β} {item : Option α} (steps : ∀ item, Balanced (step item)) :
    Balanced (item.mapM step) := by
  cases item with
  | none => exact .pure
  | some item => exact .bind (steps item) fun _ => .pure

theorem refuse {fault : Fault} {span : Span} : Balanced (refuse fault span : AnalysisM σ α) := .throw

/-- Nothing follows on what is refused. -/
theorem refuse_bind {fault : Fault} {span : Span} {next : α → AnalysisM σ β} :
    Balanced (AnalysisM.refuse fault span >>= next) := fun _ => rfl

theorem settle {answer : Except Diagnostic α} : Balanced (settle answer : AnalysisM σ α) := by
  cases answer with
  | ok => exact .pure
  | error => exact .throw

theorem demand {span : Span} {answer : Option α} : Balanced (demand span answer : AnalysisM σ α) := by
  cases answer with
  | some => exact .pure
  | none => exact .refuse

variable {span : Span} {cx : Context}

theorem readTree {ask : FrameTree → Option α} : Balanced (readTree span ask : AnalysisM σ α) :=
  .get_bind fun _ => .demand

theorem changeTree {change : FrameTree → Option (α × FrameTree)} :
    Balanced (changeTree span change : AnalysisM σ α) :=
  .get_bind fun _ => .bind .demand fun _ => .bind (.modify fun _ => rfl) fun _ => .pure

theorem askHost {ask : σ → α} : Balanced (askHost ask) := .get_bind fun _ => .pure

theorem runHost {act : StateM σ α} : Balanced (runHost act) :=
  .get_bind fun _ => .bind (.modify fun _ => rfl) fun _ => .pure

theorem tryHost {act : EStateM Diagnostic σ α} : Balanced (tryHost act) := by
  refine .get_bind fun state => ?_
  split
  · exact .bind (.modify fun _ => rfl) fun _ => .pure
  · exact .bind (.modify fun _ => rfl) fun _ => .pure

theorem freshName {name : String} : Balanced (freshName name : AnalysisM σ String) :=
  .get_bind fun _ => .bind (.modify fun _ => rfl) fun _ => .pure

theorem openFrame {kind : FrameKind} : Balanced (openFrame cx kind : AnalysisM σ FrameId) :=
  fun _ => rfl

/-- Lifting changes frames and names of the state it has read. -/
theorem lifting {lift : FrameTree → NameSupply → Option (α × FrameTree × NameSupply)} :
    Balanced (lifting span lift : AnalysisM σ α) := by
  intro before
  cases lifted : lift before.tree before.names with
  | none => rw [lifting_of_none lifted, final]
  | some answer => rw [lifting_ok.mpr ⟨_, _, lifted, rfl⟩, final]

theorem liftVar {name : Symbol} : Balanced (liftVar span cx name : AnalysisM σ LiftedVar) := by
  rw [liftVar_eq]
  exact lifting

theorem liftConstant {value : Datum} :
    Balanced (liftConstant span cx value : AnalysisM σ LiftedConstant) := by
  rw [liftConstant_eq]
  exact lifting

/-- Notes on a diagnostic do not touch the state. -/
theorem noting {analysis : AnalysisM σ α} (steps : Balanced analysis) : Balanced (noting analysis) := by
  intro before
  have kept := steps before
  unfold AnalysisM.noting
  cases run : analysis before with
  | ok value after =>
    rw [run] at kept
    exact kept
  | error halt after =>
    rw [run] at kept
    cases halt <;> exact kept

/-- A call that is put on the stack is taken off again, whatever comes of the analysis in between. -/
theorem pushing {call : Form} {analysis : AnalysisM σ α} (steps : Balanced analysis) :
    Balanced (pushExpansion call >>= fun _ => finishing popExpansion analysis) := by
  intro before
  have kept := steps (before.pushed call)
  have popped {state : State σ} (kept : state.expansions = (before.pushed call).expansions) :
      state.popped.expansions = before.expansions := by
    rw [State.popped, kept]
    exact List.dropLast_concat
  change (final (finishing popExpansion analysis (before.pushed call))).expansions = _
  unfold finishing
  cases run : analysis (before.pushed call) with
  | ok value after =>
    rw [run] at kept
    exact popped kept
  | error halt after =>
    rw [run] at kept
    exact popped kept

end Balanced

/-! ### Constants, names and bodies -/

variable {analyzer : Analyzer σ} {self : Recursion σ} {cx : Context} {span : Span}

theorem analyzeConstant_balanced {value : Datum} :
    Balanced (analyzeConstant cx value span : AnalysisM σ Expr) := by
  unfold analyzeConstant
  split
  · exact .bind .liftConstant fun _ => .pure
  · exact .pure

theorem analyzeQuoted_balanced {form : Form} : Balanced (analyzeQuoted analyzer cx form span) :=
  .bind .runHost fun _ => analyzeConstant_balanced

theorem analyzeSymbol_balanced {symbol : Symbol} :
    Balanced (analyzeSymbol analyzer cx symbol span) := by
  refine .bind .readTree fun found => ?_
  match found with
  | some ⟨.binding _, _⟩ => exact .bind .changeTree fun _ => .pure
  | some ⟨.self _, _⟩ => exact .bind .changeTree fun _ => .pure
  | none =>
    refine .bind .askHost fun var => ?_
    cases var with
    | some var => exact .bind .liftVar fun _ => .pure
    | none =>
      dsimp only
      split
      · exact .refuse
      · exact .refuse

theorem analyzeSequence_balanced (balanced : self.Balanced) (forms : List Form) :
    Balanced (analyzeSequence self cx forms) := by
  induction forms with
  | nil => exact .pure
  | cons form forms ih =>
    cases forms with
    | nil => exact .bind (balanced cx form) fun _ => .pure
    | cons next forms => exact .bind (balanced cx.statement form) fun _ => .bind ih fun _ => .pure

theorem analyzeBody_balanced (balanced : self.Balanced) (body : List Form) :
    Balanced (analyzeBody self cx body span) := by
  unfold analyzeBody
  split
  · exact analyzeConstant_balanced
  · exact balanced cx _
  · exact .bind (analyzeSequence_balanced balanced _) fun _ => .pure

theorem analyzeOperands_balanced (balanced : self.Balanced) (forms : List Form) :
    Balanced (analyzeOperands self cx forms) := by
  induction forms with
  | nil => exact .pure
  | cons form forms ih => exact .bind (balanced cx form) fun _ => .bind ih fun _ => .pure

theorem analyzeEntries_balanced (balanced : self.Balanced) (entries : List (Form × Form)) :
    Balanced (analyzeEntries self cx entries) := by
  induction entries with
  | nil => exact .pure
  | cons entry entries ih =>
    refine .bind (balanced cx.operand entry.1) fun key => ?_
    exact .bind (balanced cx.operand entry.2) fun value => .bind ih fun _ => .pure

/-! ### Local names and functions -/

theorem analyzePairs_balanced (balanced : self.Balanced) (isLoop : Bool) (pairs : List (Form × Form)) :
    Balanced (analyzePairs self cx isLoop pairs) := by
  induction pairs with
  | nil => exact .pure
  | cons pair pairs ih =>
    refine .bind .settle fun name => .bind (balanced _ pair.2) fun initial => ?_
    exact .bind .readTree fun _ => .bind .changeTree fun _ => .bind ih fun _ => .pure

theorem analyzeLet_balanced (balanced : self.Balanced) (isLoop : Bool) (args : List Form) :
    Balanced (analyzeLet self isLoop cx args span) := by
  refine .bind .settle fun pairs => .bind .openFrame fun frame => ?_
  refine .bind (analyzePairs_balanced balanced isLoop pairs) fun pairs => ?_
  have body (inner : Context) : Balanced (do
      let body ← analyzeBody self inner args.tail span
      return cx.expr (.lets isLoop pairs body frame) span) :=
    .bind (analyzeBody_balanced balanced args.tail) fun _ => .pure
  cases isLoop with
  | true => exact .bind .changeTree fun _ => body _
  | false => exact body _

theorem bindFunctions_balanced {frame : FrameId} (pairs : List (Form × Form)) :
    Balanced (bindFunctions frame pairs : AnalysisM σ _) := by
  induction pairs with
  | nil => exact .pure
  | cons pair pairs ih =>
    refine .bind .settle fun name => ?_
    dsimp only
    split
    · exact .refuse_bind
    · exact .bind .changeTree fun _ => .bind ih fun _ => .pure

theorem analyzeFunctions_balanced (balanced : self.Balanced) (pairs : List (BindingId × Form)) :
    Balanced (analyzeFunctions self cx pairs) := by
  induction pairs with
  | nil => exact .pure
  | cons pair pairs ih => exact .bind (balanced cx pair.2) fun _ => .bind ih fun _ => .pure

theorem analyzeLetfn_balanced (balanced : self.Balanced) (args : List Form) :
    Balanced (analyzeLetfn self cx args span) := by
  refine .bind .settle fun pairs => .bind .openFrame fun frame => ?_
  refine .bind (bindFunctions_balanced pairs) fun bound => ?_
  refine .bind (analyzeFunctions_balanced balanced bound) fun functions => ?_
  exact .bind (analyzeBody_balanced balanced args.tail) fun _ => .pure

theorem bindParams_balanced {frame : FrameId} (names : List Symbol) :
    Balanced (bindParams span frame names : AnalysisM σ _) := by
  induction names with
  | nil => exact .pure
  | cons name names ih => exact .bind .changeTree fun _ => .bind ih fun _ => .pure

theorem analyzeArity_balanced (balanced : self.Balanced) {name : Option Symbol} {uniqueName : String}
    (form : ArityForm) : Balanced (analyzeArity analyzer self cx name uniqueName form) := by
  refine .bind .settle fun params => .bind .openFrame fun frame => .bind .changeTree fun _ => ?_
  refine .bind (bindParams_balanced params.names) fun bindings => ?_
  exact .bind (analyzeBody_balanced balanced form.body) fun _ => .pure

theorem analyzeArities_balanced (balanced : self.Balanced) {name : Option Symbol} {uniqueName : String}
    (earlier : List Signature) (forms : List ArityForm) :
    Balanced (analyzeArities analyzer self cx name uniqueName earlier forms) := by
  induction forms generalizing earlier with
  | nil => exact .pure
  | cons form forms ih =>
    refine .bind (analyzeArity_balanced balanced form) fun arity => ?_
    dsimp only
    split
    · exact .refuse_bind
    · exact .bind (ih _) fun _ => .pure

theorem analyzeFunction_balanced (balanced : self.Balanced) (args : List Form) :
    Balanced (analyzeFunction analyzer self cx args span) := by
  refine .bind .settle fun named => .bind .settle fun forms => .bind .freshName fun uniqueName => ?_
  exact .bind (analyzeArities_balanced balanced [] forms) fun _ => .pure

/-! ### Control flow -/

theorem analyzeDo_balanced (balanced : self.Balanced) (args : List Form) :
    Balanced (analyzeDo self cx args span) := by
  unfold analyzeDo
  split
  · exact analyzeConstant_balanced
  · exact .bind (analyzeSequence_balanced balanced args) fun _ => .pure

theorem analyzeIf_balanced (balanced : self.Balanced) (args : List Form) :
    Balanced (analyzeIf self cx args span) := by
  have branches (parts : Form × Form × Option Form) : Balanced (do
      let condition ← self cx.operand parts.1
      let yes ← self cx parts.2.1
      let no ← parts.2.2.mapM (self cx)
      return cx.expr (.branch condition yes no) span) := by
    refine .bind (balanced cx.operand parts.1) fun condition => ?_
    refine .bind (balanced cx parts.2.1) fun yes => ?_
    exact .bind (.mapM (balanced cx)) fun _ => .pure
  unfold analyzeIf
  dsimp only
  split
  · exact .bind .pure branches
  · exact .bind .pure branches
  · exact .refuse_bind

theorem analyzeQuote_balanced (args : List Form) : Balanced (analyzeQuote analyzer cx args span) := by
  unfold analyzeQuote
  split
  · exact analyzeQuoted_balanced
  · exact .refuse

theorem analyzeVar_balanced (args : List Form) : Balanced (analyzeVar analyzer cx args span) := by
  unfold analyzeVar
  split
  · refine .bind .askHost fun var => ?_
    cases var with
    | some var => exact .bind .liftVar fun _ => .pure
    | none => exact .bind .askHost fun _ => .refuse
  · exact .refuse
  · exact .refuse

theorem analyzeThrow_balanced (balanced : self.Balanced) (args : List Form) :
    Balanced (analyzeThrow self cx args span) := by
  unfold analyzeThrow
  split
  · exact .bind (balanced cx.operand _) fun _ => .pure
  · exact .refuse

theorem analyzeCatch_balanced (balanced : self.Balanced) (items : List Form) (clause : Form) :
    Balanced (analyzeCatch self cx items clause) := by
  refine .bind .settle fun parts => .bind .openFrame fun frame => .bind .changeTree fun binding => ?_
  exact .bind (analyzeBody_balanced balanced parts.body) fun _ => .pure

theorem analyzeFinally_balanced (balanced : self.Balanced) (items : List Form) :
    Balanced (analyzeFinally self cx items span) :=
  .bind .openFrame fun _ => analyzeBody_balanced balanced items.tail

theorem analyzeTry_balanced (balanced : self.Balanced) (args : List Form) :
    Balanced (analyzeTry self cx args span) := by
  refine .bind .settle fun parts => .bind .openFrame fun frame => ?_
  refine .bind (analyzeBody_balanced balanced parts.body) fun body => ?_
  refine .bind (.mapM fun handler => analyzeCatch_balanced balanced handler.1 handler.2) fun _ => ?_
  exact .bind (.mapM fun items => analyzeFinally_balanced balanced items) fun _ => .pure

theorem analyzeBranches_balanced (balanced : self.Balanced) (entries : List (Form × Form)) :
    Balanced (analyzeBranches self cx entries) := by
  induction entries with
  | nil => exact .pure
  | cons entry entries ih =>
    refine .bind .settle fun key => .bind (balanced cx entry.2) fun branch => ?_
    exact .bind ih fun _ => .pure

theorem analyzeCase_balanced (balanced : self.Balanced) (args : List Form) :
    Balanced (analyzeCase self cx args span) := by
  refine .bind .settle fun parts => .bind (balanced cx.operand parts.value) fun value => ?_
  refine .bind (analyzeBranches_balanced balanced parts.entries) fun branches => ?_
  exact .bind (balanced cx parts.fallback) fun _ => .pure

theorem analyzeRecur_balanced (balanced : self.Balanced) (args : List Form) :
    Balanced (analyzeRecur self cx args span) := by
  unfold analyzeRecur
  dsimp only
  split
  · exact .refuse_bind
  · refine .bind .readTree fun lineage => ?_
    cases recurTarget lineage with
    | error fault => exact .refuse_bind
    | ok found =>
      obtain ⟨target, expected⟩ := found
      change Balanced (if args.length ≠ expected then _ else _)
      split
      · exact .refuse_bind
      · cases target with
        | loop frame => exact .bind (analyzeOperands_balanced balanced args) fun _ => .pure
        | function frame =>
          refine .bind (analyzeOperands_balanced balanced args) fun operands => ?_
          exact .bind .changeTree fun _ => .pure

/-! ### Native code, definitions and calls -/

theorem readInterpolation_balanced {text : String} : Balanced (readInterpolation analyzer text span) := by
  refine .bind .tryHost fun read => .bind .settle fun forms => ?_
  split
  · exact .pure
  · exact .refuse

theorem analyzePieces_balanced (balanced : self.Balanced) (pieces : List Piece) :
    Balanced (analyzePieces analyzer self cx span pieces) := by
  induction pieces with
  | nil => exact .pure
  | cons piece pieces ih =>
    cases piece with
    | code text => exact .bind ih fun _ => .pure
    | interpolation text =>
      refine .bind readInterpolation_balanced fun form => .bind (balanced cx.operand form) fun value => ?_
      exact .bind ih fun _ => .pure

theorem analyzeNative_balanced (balanced : self.Balanced) (args : List Form) :
    Balanced (analyzeNative analyzer self cx args span) := by
  unfold analyzeNative
  split
  · split
    · exact .bind (analyzePieces_balanced balanced _) fun _ => .pure
    · exact .refuse
  · exact .refuse
  · exact .refuse

theorem analyzeDef_balanced (balanced : self.Balanced) (args : List Form) :
    Balanced (analyzeDef analyzer self cx args span) := by
  refine .bind .askHost fun current => .bind .settle fun parts => .bind .runHost fun var => ?_
  exact .bind .liftVar fun lifted => .bind (.mapM (balanced cx.operand)) fun _ => .pure

theorem analyzeCall_balanced (balanced : self.Balanced) (head : Form) (args : List Form) :
    Balanced (analyzeCall analyzer self cx head args span) := by
  refine .bind (balanced cx.operand head) fun operator => ?_
  exact .bind (analyzeOperands_balanced balanced args) fun _ => .pure

theorem noteSelfCall_balanced {target : FrameId} :
    Balanced (noteSelfCall span target : AnalysisM σ Unit) := by
  refine .bind .readTree fun frame => ?_
  dsimp only
  split
  · exact .refuse_bind
  · exact .changeTree

theorem analyzeSelfCall_balanced (balanced : self.Balanced) {found : Found FrameId} (args : List Form) :
    Balanced (analyzeSelfCall self cx found args span) := by
  refine .bind .changeTree fun _ => .bind noteSelfCall_balanced fun _ => ?_
  exact .bind (analyzeOperands_balanced balanced args) fun _ => .pure

/-- A macro call stands on the stack only while it is expanded and its expansion analyzed. -/
theorem analyzeMacroCall_balanced (balanced : self.Balanced) (call : Form) :
    Balanced (analyzeMacroCall analyzer self cx call) := by
  refine .pushing (.noting (.bind .tryHost fun expanded => ?_))
  split
  · exact balanced cx _
  · exact .throw

theorem analyzeApplication_balanced (balanced : self.Balanced) (head : Form) (args : List Form) :
    Balanced (analyzeApplication analyzer self cx head args span) := by
  unfold analyzeApplication
  split
  · exact analyzeCall_balanced balanced head args
  · refine .bind .readTree fun found => ?_
    match found with
    | some ⟨.binding _, _⟩ => exact analyzeCall_balanced balanced head args
    | some ⟨.self _, _⟩ => exact analyzeSelfCall_balanced balanced args
    | none =>
      refine .bind .askHost fun var => ?_
      split
      · exact analyzeMacroCall_balanced balanced _
      · exact analyzeCall_balanced balanced head args

/-! ### All forms -/

theorem analyzeSpecial_balanced (balanced : self.Balanced) (special : Special) (args : List Form) :
    Balanced (analyzeSpecial analyzer self cx special args span) := by
  cases special with
  | define => exact analyzeDef_balanced balanced args
  | function => exact analyzeFunction_balanced balanced args
  | lets => exact analyzeLet_balanced balanced false args
  | loop => exact analyzeLet_balanced balanced true args
  | letfns => exact analyzeLetfn_balanced balanced args
  | sequence => exact analyzeDo_balanced balanced args
  | branch => exact analyzeIf_balanced balanced args
  | quotation => exact analyzeQuote_balanced args
  | varObject => exact analyzeVar_balanced args
  | throwing => exact analyzeThrow_balanced balanced args
  | guarded => exact analyzeTry_balanced balanced args
  | dispatch => exact analyzeCase_balanced balanced args
  | recur => exact analyzeRecur_balanced balanced args
  | native => exact analyzeNative_balanced balanced args

theorem analyzeStep_balanced (balanced : self.Balanced) :
    Recursion.Balanced (analyzeStep analyzer self) := by
  intro cx form
  unfold analyzeStep
  split
  · exact analyzeSymbol_balanced
  · unfold analyzeList
    split
    · exact analyzeSpecial_balanced balanced _ _
    · exact analyzeApplication_balanced balanced _ _
  · split
    · exact analyzeQuoted_balanced
    · split
      · exact .bind (analyzeOperands_balanced balanced _) fun _ => .pure
      · exact .bind (analyzeOperands_balanced balanced _) fun _ => .pure
      · exact .bind (analyzeEntries_balanced balanced _) fun _ => .pure
      · exact analyzeQuoted_balanced

/-- Every analysis leaves the macro calls on the stack as it found them. -/
theorem analyzeForm_balanced (depth : Nat) : (analyzeForm analyzer depth).Balanced := by
  induction depth with
  | zero => exact fun _ _ => .throw
  | succ depth ih => exact analyzeStep_balanced ih

/-- No macro call is open after a form, whatever was open before it. -/
theorem Session.analyze_closed {depth : Nat} {form : Form} {session : Session σ} :
    ((analyze analyzer depth form).run session).2.expansions = [] := by
  have balanced : Balanced (analyzeForm analyzer depth .topLevel form) :=
    analyzeForm_balanced depth .topLevel form
  change (analyze analyzer depth form session).2.expansions = []
  unfold analyze
  split
  next done => exact balanced.ok done
  next failed => exact balanced.error failed

end LispScope
