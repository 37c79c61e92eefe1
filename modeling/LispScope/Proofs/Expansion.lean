import LispScope.Host.Standard
import LispScope.Proofs.Account
import LispScope.Proofs.Safety

/-!
# Open macro calls

Main statement: `Session.analyze_expansions`. Every analysis leaves the stack of macro calls as it found
it, and a diagnostic names the macro calls that were open when the form was refused, outermost first, and
no others.

One analysis *enters* another if it ends as soon as the other is broken off. A refused analysis can be
followed inwards, from each analysis to the one that it entered and that was refused; in the end there
is one that only entered analyses with a result, or a macro call that could not be expanded. The open
calls are the macro calls on this way. Each is noted when the analysis of its expansion is refused,
together with those around it, and only the innermost one is still without a note then.
-/
namespace LispScope

open AnalysisM

variable {σ α : Type} {host : Host σ} {config : Config} {start : σ} {self : Recursion σ}

/-! ### Entering an analysis -/

open Classical in
/-- The same way of analyzing forms, except that one analysis is broken off and leaves a given state. -/
noncomputable def Recursion.breakingOff (self : Recursion σ) (moment : Moment σ) (after : State σ) :
    Recursion σ := fun cx form state =>
  if (⟨cx, form, state⟩ : Moment σ) = moment then .error .exhausted after else self cx form state

/-- A computation ends where an analysis is broken off, and leaves the same state apart from the stack. -/
def EndsWith (self : Recursion σ) (inner : Moment σ)
    (run : Recursion σ → EStateM.Result Halt (State σ) α) : Prop :=
  ∀ after, ∃ stack,
    run (self.breakingOff inner after) = .error .exhausted { after with expansions := stack }

/-- One analysis enters another: it ends where the other one is broken off. -/
def Enters (analyzer : Analyzer σ) (self : Recursion σ) (outer inner : Moment σ) : Prop :=
  EndsWith self inner fun self' => outer.outcome (analyzeStep analyzer self')

theorem Recursion.outcome_breakingOff (moment : Moment σ) (after : State σ) :
    moment.outcome (self.breakingOff moment after) = .error .exhausted after := if_pos rfl

theorem Recursion.outcome_breakingOff_of_ne {other moment : Moment σ} (apart : other ≠ moment)
    (after : State σ) : other.outcome (self.breakingOff moment after) = other.outcome self :=
  if_neg apart

/-- What depends on certain analyses only enters no other ones. -/
theorem entered_of_settled {A : Moment σ → Prop} {run : Recursion σ → EStateM.Result Halt (State σ) α}
    {result : EStateM.Result Halt (State σ) α} {inner : Moment σ}
    (settled : ∀ self', (∀ moment, A moment → moment.outcome self' = moment.outcome self) →
      run self' = result)
    (enters : EndsWith self inner run) : A inner := by
  by_contra apart
  have agrees (after : State σ) : run (self.breakingOff inner after) = result := by
    refine settled _ fun moment among => Recursion.outcome_breakingOff_of_ne ?_ after
    rintro rfl
    exact apart among
  -- The result would have to be in every state.
  obtain ⟨_, first⟩ := enters inner.state
  obtain ⟨_, second⟩ := enters { inner.state with names := ⟨inner.state.names.issued + 1⟩ }
  have same := (first.symm.trans (agrees _)).trans (second.symm.trans (agrees _)).symm
  simp only [EStateM.Result.error.injEq, true_and] at same
  have names := congrArg (fun state => state.names.issued) same
  simp at names

/-- How one analysis leads to another: it goes on to a form that its form comes with, under the same
open calls, or from a macro call to its expansion, under that call as well. -/
inductive Leads (host : Host σ) (World : σ → Prop) (outer inner : Moment σ) : Prop
  | part (plain : ¬ outer.IsMacroCall host) (supplied : Supplies host World outer.form inner.form)
      (stack : inner.state.expansions = outer.state.expansions)
  | expansion (call : outer.IsMacroCall host)
      (expanded : host.expandOnce outer.form outer.state.world = .ok inner.form inner.state.world)
      (stack : inner.state.expansions = outer.state.expansions ++ [outer.form])

section

variable {setting : Setting σ} {before after : State σ} {trace : List (Event σ)} {moment : Moment σ}
  {expr : Expr}

/-- What is entered before a course breaks off has a result. -/
theorem Path.entered {run : Recursion σ → EStateM.Result Halt (State σ) α}
    {result : EStateM.Result Halt (State σ) α} (path : Path setting self before trace after)
    (same : ∀ self', Agrees self self' trace → run self' = result) (enters : EndsWith self moment run) :
    setting.Makes moment ∧ ∃ expr after, moment.outcome self = .ok expr after := by
  have visited := entered_of_settled (A := fun moment => ∃ expr, .visit moment expr ∈ trace)
    (fun self' agrees => same self' fun moment expr member => agrees moment ⟨expr, member⟩) enters
  obtain ⟨expr, member⟩ := visited
  obtain ⟨makes, given⟩ := path.visited member
  exact ⟨makes, expr, given⟩

/-- The analysis that a course fails with is entered on it. -/
theorem Path.enters_failed {run : Recursion σ → EStateM.Result Halt (State σ) α} {halt : Halt}
    {final : State σ} (path : Path setting self before trace moment.state)
    (failed : moment.outcome self = .error halt final)
    (same : ∀ self', Agrees self self' trace → ∀ halt after, moment.outcome self' = .error halt after →
      run self' = .error halt after) : EndsWith self moment run := by
  refine fun after => ⟨after.expansions, ?_⟩
  refine same _ (fun other expr member => ?_) _ _ (Recursion.outcome_breakingOff moment after)
  refine Recursion.outcome_breakingOff_of_ne ?_ after
  rintro rfl
  -- What was visited has a result, and the analysis that fails has none.
  obtain ⟨_, _, given⟩ := path.visited member
  cases given.symm.trans failed

/-- What is entered on a course is made on account of the form. -/
theorem Course.entered {Q : α → List (Event σ) → Prop} {inner : Moment σ}
    {run : Recursion σ → EStateM.Result Halt (State σ) α} (course : Course setting self Q before run)
    (enters : EndsWith self inner run) : setting.Makes inner := by
  cases course with
  | ok path holds same => exact (path.entered same enters).1
  | breaks path breaks same => exact (path.entered same enters).1
  | @fails trace halt final moment path makes failed same =>
    have entered := entered_of_settled
      (A := fun other => (∃ expr, .visit other expr ∈ trace) ∨ other = moment)
      (fun self' agrees => same self' (fun other expr member => agrees other (.inl ⟨expr, member⟩)) _ _
        ((agrees moment (.inr rfl)).trans failed)) enters
    rcases entered with ⟨expr, member⟩ | rfl
    · exact (path.visited member).1
    · exact makes

end

/-- The analysis of a macro call depends on that of its expansion only. -/
theorem Moment.IsMacroCall.outcome_congr {moment : Moment σ} {self' : Recursion σ}
    (call : moment.IsMacroCall host)
    (same : ∀ expansion world, host.expandOnce moment.form moment.state.world = .ok expansion world →
      (moment.expanding expansion world).outcome self' =
        (moment.expanding expansion world).outcome self) :
    moment.outcome (analyzeStep ⟨host, config⟩ self') =
      moment.outcome (analyzeStep ⟨host, config⟩ self) := by
  rw [call.outcome_eq, call.outcome_eq, analyzeMacroCall_eq, analyzeMacroCall_eq]
  cases expanded : host.expandOnce moment.form moment.state.world with
  | error cause world => rw [analyzeExpansion_of_error expanded, analyzeExpansion_of_error expanded]
  | ok expansion world =>
    rw [analyzeExpansion_of_ok expanded, analyzeExpansion_of_ok expanded]
    exact congrArg closed (same expansion world expanded)

theorem Moment.IsMacroCall.enters_expansion {moment : Moment σ} {expansion : Form} {world : σ}
    (call : moment.IsMacroCall host)
    (expanded : host.expandOnce moment.form moment.state.world = .ok expansion world) :
    Enters ⟨host, config⟩ self moment (moment.expanding expansion world) := by
  intro after
  have expands : Expands host (self.breakingOff (moment.expanding expansion world) after) moment
      (moment.outcome (analyzeStep ⟨host, config⟩ _)) := call.expands
  dsimp only
  have broken : (moment.expanding expansion world).outcome
      (self.breakingOff (moment.expanding expansion world) after) = .error .exhausted after :=
    Recursion.outcome_breakingOff _ after
  generalize moment.outcome (analyzeStep _ _) = result at expands
  cases expands with
  | ok found given =>
    cases expanded.symm.trans found
    cases broken.symm.trans given
  | exhausted found failed =>
    cases expanded.symm.trans found
    cases broken.symm.trans failed
    exact ⟨after.popped.expansions, rfl⟩
  | refused found failed =>
    cases expanded.symm.trans found
    cases broken.symm.trans failed
  | unexpanded failed => cases expanded.symm.trans failed

/-- What is entered is a form that the other form comes with, or what it expands to. -/
theorem Enters.leads {outer inner : Moment σ} (enters : Enters ⟨host, config⟩ self outer inner)
    (steady : Steady host start self) (proper : outer.state.Proper host start) :
    Leads host (host.Reaches start) outer inner ∧ inner.state.Proper host start := by
  by_cases call : outer.IsMacroCall host
  · have entered := entered_of_settled
      (A := fun moment => ∃ expansion world,
        host.expandOnce outer.form outer.state.world = .ok expansion world ∧
          moment = outer.expanding expansion world)
      (fun self' agrees => call.outcome_congr fun expansion world expanded =>
        agrees _ ⟨expansion, world, expanded, rfl⟩) enters
    obtain ⟨expansion, world, expanded, rfl⟩ := entered
    exact ⟨.expansion call expanded rfl, proper.expanding expanded⟩
  · have makes := (analyzeStep_course call steady proper).entered enters
    exact ⟨.part call makes.supplied makes.nested, makes.proper⟩

/-! ### The way to a failure -/

open Classical in
/-- The macro calls among forms that are analyzed. -/
noncomputable def openCalls (host : Host σ) (moments : List (Moment σ)) : List Form :=
  (moments.filter fun moment => decide (moment.IsMacroCall host)).map Moment.form

theorem openCalls_of_call {moment : Moment σ} {moments : List (Moment σ)}
    (call : moment.IsMacroCall host) :
    openCalls host (moment :: moments) = moment.form :: openCalls host moments := by
  simp [openCalls, call]

theorem openCalls_of_plain {moment : Moment σ} {moments : List (Moment σ)}
    (plain : ¬ moment.IsMacroCall host) :
    openCalls host (moment :: moments) = openCalls host moments := by
  simp [openCalls, plain]

/-- The way inwards from a refused analysis, through the refused analyses that it entered, to where the
fault is: an analysis that only entered analyses with a result, or a macro call that cannot be
expanded. All of them end in the same state, apart from the stack, which each leaves as it found it. -/
inductive Descent (host : Host σ) (config : Config) (kind : Kind) (causes : List Incident)
    (final : State σ) : Nat → Moment σ → List (Moment σ) → Prop
  | fault {moment : Moment σ} (plain : ¬ moment.IsMacroCall host)
      (finished : ∀ inner, Enters ⟨host, config⟩ (analyzeForm ⟨host, config⟩ depth) moment inner →
        ∃ expr after, inner.outcome (analyzeForm ⟨host, config⟩ depth) = .ok expr after) :
      Descent host config kind causes final (depth + 1) moment []
  | unexpanded {moment : Moment σ} (call : moment.IsMacroCall host)
      (failed : host.expandOnce moment.form moment.state.world = .error cause world)
      (named : kind = .expansionFailure) (caused : causes = cause.chain) :
      Descent host config kind causes final (depth + 1) moment []
  | inward {moment inner : Moment σ}
      (enters : Enters ⟨host, config⟩ (analyzeForm ⟨host, config⟩ depth) moment inner)
      (failed : inner.outcome (analyzeForm ⟨host, config⟩ depth) =
        .error (.refused reason) { final with expansions := inner.state.expansions })
      (rest : Descent host config kind causes final depth inner trail) :
      Descent host config kind causes final (depth + 1) moment (inner :: trail)

/-- What is noted on a diagnostic: the open calls and those around them, or nothing if none are open. -/
structure Notes (around calls expansions : List Form) : Prop where
  none : calls = [] → expansions = []
  some : calls ≠ [] → expansions = around ++ calls

/-- A call that is noted is put before those that are open inside it. -/
theorem Notes.noted {around calls : List Form} {call : Form} {diagnostic : Diagnostic}
    (notes : Notes (around ++ [call]) calls diagnostic.expansions) :
    Notes around (call :: calls) (diagnostic.noteExpansions (around ++ [call])).expansions := by
  refine ⟨nofun, fun _ => ?_⟩
  unfold Diagnostic.noteExpansions
  by_cases bare : calls = []
  · rw [notes.none bare, bare]
    rfl
  · rw [notes.some bare, if_neg (by simp)]
    simp [notes.some bare]

/-- An analysis that is refused leaves the stack as it found it. -/
theorem Moment.refused_stack {depth : Nat} {moment : Moment σ} {halt : Halt} {after : State σ}
    (failed : moment.outcome (analyzeForm ⟨host, config⟩ depth) = .error halt after) :
    after.expansions = moment.state.expansions :=
  (analyzeForm_balanced depth moment.cx moment.form).error failed

/-- A refused analysis can be followed inwards, and the calls on the way are noted. -/
theorem analyzeForm_descent
    (reader : ∀ world text span diagnostic after, host.Reaches start world →
      host.readFragment text span world = .error diagnostic after → diagnostic.expansions = [])
    {depth : Nat} {moment : Moment σ} {diagnostic : Diagnostic} {final : State σ} {stack : List Form}
    (proper : moment.state.Proper host start)
    (refused : moment.outcome (analyzeForm ⟨host, config⟩ depth) =
      .error (.refused diagnostic) { final with expansions := stack }) :
    ∃ trail, Descent host config diagnostic.kind diagnostic.causes final depth moment trail ∧
      Notes moment.state.expansions (openCalls host (moment :: trail)) diagnostic.expansions := by
  induction depth generalizing moment diagnostic stack with
  | zero => cases refused
  | succ depth ih =>
    have steady : Steady host start (analyzeForm ⟨host, config⟩ depth) := analyzeForm_steady depth
    by_cases call : moment.IsMacroCall host
    · have expands : Expands host (analyzeForm ⟨host, config⟩ depth) moment
          (moment.outcome (analyzeForm ⟨host, config⟩ (depth + 1))) := call.expands
      rw [refused] at expands
      generalize ended : ({ final with expansions := stack } : State σ) = left at expands
      cases expands with
      | @refused expansion world reason after expanded failed =>
        have left : after = { final with expansions := after.expansions } := by
          cases after
          cases ended
          rfl
        rw [Moment.refused_stack failed] at left ⊢
        rw [left] at failed
        obtain ⟨trail, descent, notes⟩ := ih (proper.expanding expanded) failed
        refine ⟨_ :: trail, .inward (call.enters_expansion expanded) failed ?_, ?_⟩
        · rw [Diagnostic.noteExpansions_kind, Diagnostic.noteExpansions_causes]
          exact descent
        · rw [openCalls_of_call call]
          exact notes.noted
      | unexpanded failed =>
        refine ⟨[], .unexpanded call failed rfl rfl, ?_⟩
        rw [openCalls_of_call call]
        exact ⟨nofun, fun _ => rfl⟩
    · have agrees (trace : List (Event σ)) : Agrees (analyzeForm ⟨host, config⟩ depth)
          (analyzeForm ⟨host, config⟩ depth) trace := fun _ _ _ => rfl
      have course : Course (moment.setting host start) _ _ _
        fun self' => moment.outcome (analyzeStep ⟨host, config⟩ self') :=
        analyzeStep_course call steady proper
      cases course with
      | ok path holds same => cases (same _ (agrees _)).symm.trans refused
      | breaks path breaks same =>
        obtain ⟨rfl, -⟩ := EStateM.Result.error.inj ((same _ (agrees _)).symm.trans refused)
        refine ⟨[], .fault call fun inner enters => (path.entered same enters).2, ?_⟩
        rw [openCalls_of_plain call]
        refine ⟨fun _ => ?_, fun bare => (bare rfl).elim⟩
        cases breaks with
        | fault => rfl
        | broken => rfl
        | unread located reached answer => exact reader _ _ _ _ _ reached answer
      | fails inner path makes failed same =>
        cases (same _ (agrees _) _ _ failed).symm.trans refused
        obtain ⟨trail, descent, notes⟩ := ih makes.proper failed
        have kept : stack = inner.state.expansions := Moment.refused_stack failed
        rw [kept] at failed
        refine ⟨inner :: trail, .inward (path.enters_failed failed same) failed descent, ?_⟩
        rw [openCalls_of_plain call]
        rw [show inner.state.expansions = moment.state.expansions from makes.nested] at notes
        exact notes

/-! ### Whole analyses -/

/-- The analyses that are made on account of a first one, with the depth that is left to them. -/
inductive Made (analyzer : Analyzer σ) (depth : Nat) (top : Moment σ) : Nat → Moment σ → Prop
  | top : Made analyzer depth top depth top
  | entered {outer inner : Moment σ} (made : Made analyzer depth top (lesser + 1) outer)
      (enters : Enters analyzer (analyzeForm analyzer lesser) outer inner) :
      Made analyzer depth top lesser inner

theorem Made.proper {depth lesser : Nat} {top moment : Moment σ}
    (made : Made ⟨host, config⟩ depth top lesser moment) (proper : top.state.Proper host start) :
    moment.state.Proper host start := by
  induction made with
  | top => exact proper
  | entered _ enters ih => exact (enters.leads (analyzeForm_steady _) ih).2

/-- On the way inwards, each analysis leads to the next one. -/
theorem Descent.chain {kind : Kind} {causes : List Incident} {final : State σ} {depth : Nat}
    {moment : Moment σ} {trail : List (Moment σ)}
    (descent : Descent host config kind causes final depth moment trail)
    (proper : moment.state.Proper host start) :
    (moment :: trail).IsChain (Leads host (host.Reaches start)) := by
  induction descent with
  | fault => exact .singleton _
  | unexpanded => exact .singleton _
  | inward enters failed _ ih =>
    obtain ⟨leads, proper⟩ := enters.leads (analyzeForm_steady _) proper
    exact .cons_cons leads (ih proper)

/-- Every analysis, of any form and from any state, leaves the stack of macro calls as it found it, on
success and on failure. An analysis that is made in between finds the macro calls there that are open
around it, whatever has become of other analyses before. If a form is refused, there is a way from its
own analysis inwards to where the fault is, and the diagnostic names the macro calls on this way,
outermost first. No call is open after a form. -/
theorem Session.analyze_expansions (host : Host σ) (config : Config) (session : Session σ)
    (reader : ∀ world text span diagnostic after, host.Reaches session.world world →
      host.readFragment text span world = .error diagnostic after → diagnostic.expansions = [])
    (depth : Nat) (form : Form) :
    (∀ lesser cx form state, (AnalysisM.final
      (analyzeForm ⟨host, config⟩ lesser cx form state)).expansions = state.expansions) ∧
    (∀ lesser outer inner, Made ⟨host, config⟩ depth (session.moment form) (lesser + 1) outer →
      Enters ⟨host, config⟩ (analyzeForm ⟨host, config⟩ lesser) outer inner →
        Leads host (host.Reaches session.world) outer inner) ∧
    (∀ diagnostic, ((analyze ⟨host, config⟩ depth form).run session).1 = .error (.refused diagnostic) →
      ∃ final trail,
        Descent host config diagnostic.kind diagnostic.causes final depth (session.moment form) trail ∧
        (session.moment form :: trail).IsChain (Leads host (host.Reaches session.world)) ∧
        diagnostic.expansions = openCalls host (session.moment form :: trail)) ∧
    ((analyze ⟨host, config⟩ depth form).run session).2.expansions = [] := by
  have proper : (session.moment form).state.Proper host session.world := session.moment_proper form
  refine ⟨fun lesser cx form => analyzeForm_balanced lesser cx form, ?_, ?_, ?_⟩
  · intro lesser outer inner made enters
    exact (enters.leads (analyzeForm_steady lesser) (made.proper proper)).1
  · intro diagnostic refused
    change (analyze ⟨host, config⟩ depth form session).1 = _ at refused
    unfold analyze at refused
    split at refused <;> cases refused
    next final failed =>
      obtain ⟨trail, descent, notes⟩ := analyzeForm_descent reader proper failed
      refine ⟨final, trail, descent, descent.chain proper, ?_⟩
      by_cases bare : openCalls host (session.moment form :: trail) = []
      · rw [bare, notes.none bare]
      · exact notes.some bare
  · exact analyze_closed

/-- `(when 1 (unless 2 (broken)))`. -/
def unfinished : Form :=
  let list (name : String) (args : List Form) : Form :=
    .list (.symbol (.simple name) .synthetic :: args) .synthetic
  list "when" [.atom (.int 1) .synthetic, list "unless" [.atom (.int 2) .synthetic, list "broken" []]]

/-- The names of the macro calls that are noted on the diagnostic of a refused form. -/
def namesOpen? : Except Halt Analysis → Option (List (Option Symbol))
  | .error (.refused diagnostic) =>
    some (diagnostic.expansions.map fun call => call.items.head?.bind Form.symbol?)
  | _ => none

/-- In `unfinished` the expansion of `broken` is refused. Three other calls are open then, one of which is
only in the expansion of another. -/
theorem unfinished_expansions : ∃ diagnostic final trail,
    ((Session.analyze ⟨Namespaces.host, .standard⟩ 9 unfinished).run (.start Standard.namespaces)).1 =
      .error (.refused diagnostic) ∧
    Descent Namespaces.host .standard diagnostic.kind diagnostic.causes final 9
      (Session.moment (.start Standard.namespaces) unfinished) trail ∧
    (openCalls Namespaces.host (Session.moment (.start Standard.namespaces) unfinished :: trail)).map
        (fun call => call.items.head?.bind Form.symbol?) =
      ["when", "unless", "when", "broken"].map fun name => some (.simple name) := by
  have reader (world : Namespaces) (text : String) (span : Span) (diagnostic : Diagnostic)
      (after : Namespaces) (reached : Namespaces.host.Reaches Standard.namespaces world)
      (unread : Namespaces.host.readFragment text span world = .error diagnostic after) :
      diagnostic.expansions = [] := by
    have standard : world.reader = some Standard.readFragment :=
      (Namespaces.reader_of_reaches reached).trans rfl
    simp only [Namespaces.host, Namespaces.readFragment, standard, Standard.readFragment] at unread
    cases read : Source.readAll text with
    | ok forms =>
      rw [read] at unread
      cases unread
    | error error =>
      rw [read] at unread
      cases unread
      rfl
  have computed : namesOpen? ((Session.analyze ⟨Namespaces.host, .standard⟩ 9 unfinished).run
      (.start Standard.namespaces)).1 =
        some (["when", "unless", "when", "broken"].map fun name => some (.simple name)) := by
    decide +kernel
  obtain ⟨_, _, named, _⟩ := Session.analyze_expansions Namespaces.host .standard
    (.start Standard.namespaces) reader 9 unfinished
  generalize ((Session.analyze ⟨Namespaces.host, .standard⟩ 9 unfinished).run
    (.start Standard.namespaces)).1 = result at computed named
  unfold namesOpen? at computed
  split at computed
  next diagnostic =>
    obtain ⟨final, trail, descent, _, expansions⟩ := named diagnostic rfl
    rw [expansions] at computed
    exact ⟨diagnostic, final, trail, rfl, descent, Option.some.inj computed⟩
  next => cases computed

end LispScope
