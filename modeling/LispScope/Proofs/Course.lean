import LispScope.Proofs.Accord
import LispScope.Proofs.Balance
import LispScope.Proofs.Lifting

/-!
# The course of an analysis

Apart from looking after its scopes, the analysis of a form does few things: it has other forms
analyzed, it interns vars and keywords, and it has text read. A `Path` is a run of such steps, with a
*trace* of the analyses that were made and of what the host was asked for; a `Course` is a path that
comes to a result or breaks off. It breaks off where the form itself is at fault, where a text cannot
be read, or where the analysis of another form has no result.

A computation that makes use of a way of analyzing forms follows the same course for another way, as
long as the two agree on the analyses of the trace. `Routine` says that a computation follows a course
from every state that fits the form: it can be reached, and the macro calls around the form are open.
There is one rule for each primitive step.
-/
namespace LispScope

open AnalysisM

/-! ### What an analysis refers to -/

namespace Datum

mutual

/-- The keywords of a datum, in the order in which they are written. -/
def keywords : Datum → List Symbol
  | atom (.keyword name) => [name]
  | atom _ => []
  | seq _ items => itemKeywords items
  | map entries => entryKeywords entries
termination_by structural datum => datum

def itemKeywords : List Datum → List Symbol
  | [] => []
  | item :: items => item.keywords ++ itemKeywords items
termination_by structural items => items

def entryKeywords : List (Datum × Datum) → List Symbol
  | [] => []
  | (key, value) :: entries => key.keywords ++ value.keywords ++ entryKeywords entries
termination_by structural entries => entries

end

end Datum

namespace Form

/-- A form stands inside another one. -/
def Inside (sub form : Form) : Prop := ∃ item ∈ form.items, sub.Within item

/-- A span is that of a form or of one inside it. -/
def HasSpan (form : Form) (span : Span) : Prop := ∃ sub : Form, sub.Within form ∧ sub.span = span

theorem hasSpan_self (form : Form) : form.HasSpan form.span := ⟨form, .self, rfl⟩

theorem Inside.hasSpan {sub form : Form} (inside : sub.Inside form) : form.HasSpan sub.span := by
  obtain ⟨item, member, within⟩ := inside
  exact ⟨sub, .inside member within, rfl⟩

theorem throughout_inside (form : Form) : Throughout (·.Inside form) form.items :=
  fun item member _ within => ⟨item, member, within⟩

end Form

/-- Every lifted var stands under its own name. -/
def FrameTree.Named (tree : FrameTree) : Prop :=
  ∀ id, ∀ entry ∈ (tree.lifts id).1.entries, entry.2.name = entry.1

namespace FrameTree.Named

variable {before after : FrameTree}

theorem initial : FrameTree.initial.Named := by
  rintro (_ | id) entry member <;> cases member

theorem sameLifts (named : before.Named) (same : before.SameLifts after) : after.Named := by
  intro id entry member
  rw [same id] at member
  exact named id entry member

/-- What is lifted for a name has that name. -/
theorem liftVar {supply names : NameSupply} {frame : FrameId} {name : Symbol} {var : LiftedVar}
    (named : before.Named) (lifted : before.liftVar supply frame name = some (var, after, names)) :
    after.Named ∧ var.name = name := by
  obtain ⟨home, _, others, _, registered⟩ := liftVar_some lifted
  generalize olds : (before.lifts home).1 = old, news : (after.lifts home).1 = new at registered
  have here : ∀ entry ∈ new.entries, entry.2.name = entry.1 := by
    cases registered with
    | found held same => exact olds ▸ named home
    | made absent own drawn =>
      refine List.forall_mem_append.mpr ⟨olds ▸ named home, ?_⟩
      simpa using own
  constructor
  · intro id entry member
    by_cases same : id = home
    · rw [same, news] at member
      exact here entry member
    · rw [others id same] at member
      exact named id entry member
  · cases registered with
    | found held same =>
      obtain ⟨entry, member, key, rfl⟩ := Registry.mem_of_get? held
      exact (here entry member).trans (eq_of_beq key)
    | made absent own drawn => exact own

theorem liftConstant {supply names : NameSupply} {frame : FrameId} {value : Datum}
    {constant : LiftedConstant} (named : before.Named)
    (lifted : before.liftConstant supply frame value = some (constant, after, names)) :
    after.Named := by
  obtain ⟨home, _, others, vars, _⟩ := liftConstant_some lifted
  intro id entry member
  by_cases same : id = home
  · rw [same, vars] at member
    exact named home entry member
  · rw [others id same] at member
    exact named id entry member

end FrameTree.Named

/-! ### Moments and traces -/

/-- What the analysis of a form has around it. -/
structure Setting (σ : Type) where
  host : Host σ
  /-- The state of the host in the beginning. -/
  start : σ
  /-- The macro calls whose expansion is being analyzed, outermost first. -/
  stack : List Form
  form : Form

/-- Where and when a form is analyzed. -/
structure Moment (σ : Type) where
  cx : Context
  form : Form
  state : State σ

/-- What becomes of the form. -/
def Moment.outcome {σ : Type} (moment : Moment σ) (self : Recursion σ) :
    EStateM.Result Halt (State σ) Expr :=
  self moment.cx moment.form moment.state

/-- A form is a macro call where and when it is analyzed: a list whose head is no special form and
refers to nothing inside the form, but to a macro of the host. -/
inductive Moment.IsMacroCall {σ : Type} (host : Host σ) : Moment σ → Prop
  | intro {cx : Context} {state : State σ} {symbol name : Symbol} (headed : head.symbol? = some symbol)
      (ordinary : Special.ofSymbol? symbol = none)
      (climbed : state.tree.lineage cx.frame = some lineage) (free : lineage.resolve symbol = none)
      (found : host.findVar state.world (host.qualify state.world symbol) = some ⟨name, true⟩) :
      IsMacroCall host ⟨cx, .list (head :: args) span, state⟩

/-- What the analysis of a form has around it where and when it is made. -/
def Moment.setting {σ : Type} (host : Host σ) (start : σ) (moment : Moment σ) : Setting σ :=
  ⟨host, start, moment.state.expansions, moment.form⟩

/-- The analysis of what the form is expanded to, which takes the place of its own. -/
def Moment.expanding {σ : Type} (moment : Moment σ) (expansion : Form) (world : σ) : Moment σ :=
  ⟨moment.cx, expansion, { moment.state.pushed moment.form with world }⟩

/-- What a host is asked for that outlasts the analysis. -/
inductive Deed
  | define (name : Symbol)
  | keyword (name : Symbol)

/-- What is noted of a path: the analyses that gave a result, and what the host was asked for. -/
inductive Event (σ : Type)
  | visit (moment : Moment σ) (expr : Expr)
  | deed (deed : Deed)

/-- What the host was asked for on account of a node. -/
def Node.deeds : Node ε → List Deed
  | define var _ => [.define var.name]
  | literal value _ => value.keywords.map .keyword
  | _ => []

variable {σ α β : Type} {setting : Setting σ} {self : Recursion σ}

/-- A state that an analysis can come to. -/
structure State.Proper (host : Host σ) (start : σ) (state : State σ) : Prop where
  reached : host.Reaches start state.world
  named : state.tree.Named

theorem State.Proper.expanding {host : Host σ} {start world : σ} {moment : Moment σ} {expansion : Form}
    (proper : moment.state.Proper host start)
    (expanded : host.expandOnce moment.form moment.state.world = .ok expansion world) :
    (moment.expanding expansion world).state.Proper host start :=
  ⟨.expanded proper.reached expanded, proper.named⟩

/-- A way of analyzing forms that goes from proper states to proper states, with the same macro calls
open. -/
structure Steady (host : Host σ) (start : σ) (visit : Recursion σ) : Prop where
  balanced : visit.Balanced
  proper (moment : Moment σ) {expr : Expr} {after : State σ} (begun : moment.state.Proper host start)
    (given : moment.outcome visit = .ok expr after) : after.Proper host start

/-- A state that the analysis of the form can come to in between. -/
structure Setting.Fits (setting : Setting σ) (state : State σ) : Prop where
  proper : state.Proper setting.host setting.start
  nested : state.expansions = setting.stack

theorem Moment.fits {host : Host σ} {start : σ} {moment : Moment σ}
    (proper : moment.state.Proper host start) : (moment.setting host start).Fits moment.state :=
  ⟨proper, rfl⟩

/-- An analysis that is made on account of the form. -/
structure Setting.Makes (setting : Setting σ) (moment : Moment σ) : Prop
    extends setting.Fits moment.state where
  supplied : Supplies setting.host (setting.host.Reaches setting.start) setting.form moment.form

/-- A single step, with what is noted of it. -/
inductive Move (setting : Setting σ) (self : Recursion σ) :
    State σ → List (Event σ) → State σ → Prop
  | scopes {before : State σ} (named : tree.Named) :
      Move setting self before [] { before with tree, names }
  | read {before : State σ}
      (answer : setting.host.readFragment text span before.world = .ok forms world) :
      Move setting self before [] { before with world }
  | define {before : State σ} {name : Symbol} (reached : setting.host.Reaches setting.start asked)
      (answer : setting.host.internVar (name.withNs (setting.host.currentNs asked)) before.world =
        (var, world)) :
      Move setting self before [.deed (.define var.name)] { before with world }
  | keywords {before : State σ} {part : Form}
      (answer : part.constant setting.host.internKeyword before.world = (value, world)) :
      Move setting self before ((value.keywords.map .keyword).map .deed) { before with world }
  | visit (moment : Moment σ) (makes : setting.Makes moment)
      (given : moment.outcome self = .ok expr after) :
      Move setting self moment.state [.visit moment expr] after

/-- A run of steps, with what is noted of it. -/
inductive Path (setting : Setting σ) (self : Recursion σ) :
    State σ → List (Event σ) → State σ → Prop
  | done : Path setting self state [] state
  | step (move : Move setting self before events between)
      (rest : Path setting self between trace after) : Path setting self before (events ++ trace) after

/-- Why a run breaks off by itself. -/
inductive Breaks (setting : Setting σ) : State σ → Halt → State σ → Prop
  | fault {state : State σ} {fault : Fault} (proper : fault.kind.family = .analyze)
      (located : setting.form.HasSpan span) :
      Breaks setting state (.refused (fault.diagnose span)) state
  | broken {state : State σ} {fault : Fault} (internal : fault.kind = .internalFailure)
      (located : setting.form.HasSpan span) :
      Breaks setting state (.refused (fault.diagnose span)) state
  | unread {state : State σ} (located : setting.form.HasSpan span)
      (reached : setting.host.Reaches setting.start state.world)
      (answer : setting.host.readFragment text span state.world = .error diagnostic world) :
      Breaks setting state (.refused diagnostic) { state with world }

section

variable {before between after : State σ} {trace events others : List (Event σ)}

theorem Move.fits (steady : Steady setting.host setting.start self)
    (move : Move setting self before events after) (fits : setting.Fits before) :
    setting.Fits after := by
  obtain ⟨⟨reached, named⟩, nested⟩ := fits
  cases move with
  | scopes named => exact ⟨⟨reached, named⟩, nested⟩
  | read answer => exact ⟨⟨.read reached answer, named⟩, nested⟩
  | @define asked _ _ _ name _ answer =>
    have interned := reached.internVar (name.withNs (setting.host.currentNs asked))
    rw [answer] at interned
    exact ⟨⟨interned, named⟩, nested⟩
  | @keywords _ _ _ part answer =>
    have interned := part.constant_keeps (fun name _ => Host.Reaches.internKeyword name) reached
    rw [answer] at interned
    exact ⟨⟨interned, named⟩, nested⟩
  | visit moment makes given =>
    exact ⟨steady.proper moment makes.proper given, ((steady.balanced _ _).ok given).trans nested⟩

namespace Path

theorem of_move (move : Move setting self before events after) :
    Path setting self before events after := by
  simpa using Path.step move .done

theorem append (first : Path setting self before trace between)
    (second : Path setting self between others after) :
    Path setting self before (trace ++ others) after := by
  induction first with
  | done => exact second
  | step move _ ih =>
    rw [List.append_assoc]
    exact .step move (ih second)

theorem fits (steady : Steady setting.host setting.start self)
    (path : Path setting self before trace after) (fits : setting.Fits before) :
    setting.Fits after := by
  induction path with
  | done => exact fits
  | step move _ ih => exact ih (move.fits steady fits)

/-- What is visited on a path has a result. -/
theorem visited {moment : Moment σ} {expr : Expr} (path : Path setting self before trace after)
    (member : .visit moment expr ∈ trace) :
    setting.Makes moment ∧ ∃ after, moment.outcome self = .ok expr after := by
  induction path with
  | done => cases member
  | step move _ ih =>
    rcases List.mem_append.mp member with here | later
    · cases move with
      | visit moment makes given =>
        cases List.mem_singleton.mp here
        exact ⟨makes, _, given⟩
      | keywords => simp at here
      | define => simp at here
      | scopes => cases here
      | read => cases here
    · exact ih later

end Path

end

/-! ### Courses -/

/-- Two ways of analyzing forms give the same in all analyses of a trace. -/
def Agrees (self self' : Recursion σ) (trace : List (Event σ)) : Prop :=
  ∀ moment expr, .visit moment expr ∈ trace → moment.outcome self' = moment.outcome self

theorem Agrees.append {self' : Recursion σ} {first second : List (Event σ)} :
    Agrees self self' (first ++ second) ↔ Agrees self self' first ∧ Agrees self self' second := by
  simp only [Agrees, List.mem_append]
  constructor
  · intro agrees
    exact ⟨fun moment expr member => agrees moment expr (.inl member),
      fun moment expr member => agrees moment expr (.inr member)⟩
  · rintro ⟨first, second⟩ moment expr (member | member)
    · exact first moment expr member
    · exact second moment expr member

/-- How a computation ends that follows a path, whatever way of analyzing forms it is given that agrees
with the first one so far. -/
inductive Course (setting : Setting σ) (self : Recursion σ) (Q : α → List (Event σ) → Prop)
    (before : State σ) (run : Recursion σ → EStateM.Result Halt (State σ) α) : Prop
  | ok (path : Path setting self before trace after) (holds : Q value trace)
      (same : ∀ self', Agrees self self' trace → run self' = .ok value after)
  | breaks (path : Path setting self before trace between) (breaks : Breaks setting between halt after)
      (same : ∀ self', Agrees self self' trace → run self' = .error halt after)
  | fails (moment : Moment σ) (path : Path setting self before trace moment.state)
      (makes : setting.Makes moment) (failed : moment.outcome self = .error halt after)
      (same : ∀ self', Agrees self self' trace → ∀ halt after, moment.outcome self' = .error halt after →
        run self' = .error halt after)

/-- The result that a course comes to. -/
inductive Ending (setting : Setting σ) (self : Recursion σ) (Q : α → List (Event σ) → Prop)
    (before : State σ) : EStateM.Result Halt (State σ) α → Prop
  | ok (path : Path setting self before trace after) (holds : Q value trace) :
      Ending setting self Q before (.ok value after)
  | breaks (path : Path setting self before trace between) (breaks : Breaks setting between halt after) :
      Ending setting self Q before (.error halt after)
  | fails (moment : Moment σ) (path : Path setting self before trace moment.state)
      (makes : setting.Makes moment) (failed : moment.outcome self = .error halt after) :
      Ending setting self Q before (.error halt after)

theorem Course.ending {Q : α → List (Event σ) → Prop} {before : State σ}
    {run : Recursion σ → EStateM.Result Halt (State σ) α} (course : Course setting self Q before run) :
    Ending setting self Q before (run self) := by
  have agrees (trace : List (Event σ)) : Agrees self self trace := fun _ _ _ => rfl
  cases course with
  | ok path holds same => exact same self (agrees _) ▸ .ok path holds
  | breaks path breaks same => exact same self (agrees _) ▸ .breaks path breaks
  | fails moment path makes failed same =>
    exact same self (agrees _) _ _ failed ▸ .fails moment path makes failed

/-- A computation that follows a course from every state that fits the form. -/
def Routine (setting : Setting σ) (self : Recursion σ) (run : Recursion σ → AnalysisM σ α)
    (Q : α → List (Event σ) → Prop) : Prop :=
  Steady setting.host setting.start self → ∀ before : State σ, setting.Fits before →
    Course setting self Q before fun self' => run self' before

/-- Nothing is noted. -/
def Silent (R : α → Prop) (value : α) (trace : List (Event σ)) : Prop := trace = [] ∧ R value

namespace Routine

variable {P : α → List (Event σ) → Prop} {Q : β → List (Event σ) → Prop} {R : α → Prop} {span : Span}

theorem pure {value : α} (holds : P value []) : Routine setting self (fun _ => pure value) P :=
  fun _ _ _ => .ok .done holds fun _ _ => rfl

theorem bind {first : Recursion σ → AnalysisM σ α} {next : Recursion σ → α → AnalysisM σ β}
    (steps : Routine setting self first P)
    (follow : ∀ value trace, P value trace →
      Routine setting self (fun self' => next self' value) fun result more => Q result (trace ++ more)) :
    Routine setting self (fun self' => first self' >>= next self') Q := by
  intro steady before fits
  cases steps steady before fits with
  | breaks path breaks same =>
    exact .breaks path breaks fun self' agrees => bind_of_error (same self' agrees)
  | fails moment path makes failed same =>
    refine .fails moment path makes failed fun self' agrees halt after failed => ?_
    exact bind_of_error (same self' agrees halt after failed)
  | @ok trace between value path holds same =>
    have onward (self' : Recursion σ) (agrees : Agrees self self' trace) :
        (first self' >>= next self') before = next self' value between := bind_of_ok (same self' agrees)
    cases follow value trace holds steady between (path.fits steady fits) with
    | ok more holds same =>
      refine .ok (path.append more) holds fun self' agrees => ?_
      rw [Agrees.append] at agrees
      exact (onward self' agrees.1).trans (same self' agrees.2)
    | breaks more breaks same =>
      refine .breaks (path.append more) breaks fun self' agrees => ?_
      rw [Agrees.append] at agrees
      exact (onward self' agrees.1).trans (same self' agrees.2)
    | fails moment more makes failed same =>
      refine .fails moment (path.append more) makes failed fun self' agrees => ?_
      rw [Agrees.append] at agrees
      exact fun halt after failed =>
        (onward self' agrees.1).trans (same self' agrees.2 halt after failed)

/-- What follows on a step of which nothing is noted. -/
theorem after {first : Recursion σ → AnalysisM σ α} {next : Recursion σ → α → AnalysisM σ β}
    (steps : Routine setting self first (Silent R))
    (follow : ∀ value, R value → Routine setting self (fun self' => next self' value) Q) :
    Routine setting self (fun self' => first self' >>= next self') Q := by
  refine .bind steps ?_
  rintro value _ ⟨rfl, holds⟩
  exact follow value holds

theorem refuse {fault : Fault} (proper : fault.kind.family = .analyze)
    (located : setting.form.HasSpan span) : Routine setting self (fun _ => refuse fault span) P :=
  fun _ _ _ => .breaks .done (.fault proper located) fun _ _ => rfl

/-- A fault of the analysis itself. -/
theorem broken {fault : Fault} (internal : fault.kind = .internalFailure)
    (located : setting.form.HasSpan span) :
    Routine setting self (fun _ => AnalysisM.refuse fault span) P :=
  fun _ _ _ => .breaks .done (.broken internal located) fun _ _ => rfl

/-- Nothing follows on what is refused. -/
theorem refuse_bind {fault : Fault} {next : Recursion σ → α → AnalysisM σ β}
    (proper : fault.kind.family = .analyze) (located : setting.form.HasSpan span) :
    Routine setting self (fun self' => AnalysisM.refuse fault span >>= next self') Q :=
  .bind (P := fun _ _ => False) (refuse proper located) fun _ _ impossible => impossible.elim

theorem broken_bind {fault : Fault} {next : Recursion σ → α → AnalysisM σ β}
    (internal : fault.kind = .internalFailure) (located : setting.form.HasSpan span) :
    Routine setting self (fun self' => AnalysisM.refuse fault span >>= next self') Q :=
  .bind (P := fun _ _ => False) (broken internal located) fun _ _ impossible => impossible.elim

theorem settled {answer : Except Diagnostic α} (blames : Blames setting.form.HasSpan answer) :
    Routine setting self (fun _ => settle answer) (Silent fun value => answer = .ok value) := by
  cases answer with
  | ok value => exact .pure ⟨rfl, rfl⟩
  | error diagnostic =>
    obtain ⟨fault, span, proper, located, rfl⟩ := blames diagnostic rfl
    exact .refuse proper located

theorem visit {cx : Context} {part : Form} {P : Expr → List (Event σ) → Prop}
    (supplied : Supplies setting.host (setting.host.Reaches setting.start) setting.form part)
    (holds : ∀ state expr, P expr [.visit ⟨cx, part, state⟩ expr]) :
    Routine setting self (fun self' => self' cx part) P := by
  intro steady before fits
  have makes : setting.Makes ⟨cx, part, before⟩ := ⟨fits, supplied⟩
  cases given : self cx part before with
  | ok expr after =>
    refine .ok (.of_move (.visit ⟨cx, part, before⟩ makes given)) (holds before expr) ?_
    exact fun _ agrees => (agrees ⟨cx, part, before⟩ expr (List.mem_singleton_self _)).trans given
  | error halt after =>
    exact .fails ⟨cx, part, before⟩ .done makes given fun _ _ _ _ failed => failed

/-! ### Scopes -/

/-- A step that looks after the scopes changes nothing else. It breaks off only where they are broken. -/
theorem scopes {step : AnalysisM σ α} (located : setting.form.HasSpan span)
    (quiet : ∀ before : State σ, before.tree.Named →
      (∃ value tree names, step before = .ok value { before with tree, names } ∧ tree.Named ∧ R value) ∨
        step before = .error (.refused (Fault.brokenScopes.diagnose span)) before) :
    Routine setting self (fun _ => step) (Silent R) := by
  intro steady before fits
  rcases quiet before fits.proper.named with ⟨value, tree, names, done, named, holds⟩ | broken
  · exact .ok (.of_move (.scopes named)) ⟨rfl, holds⟩ fun _ _ => done
  · exact .breaks .done (.broken rfl located) fun _ _ => broken

theorem readTree {ask : FrameTree → Option α} (located : setting.form.HasSpan span) :
    Routine setting self (fun _ => readTree span ask) (Silent fun _ => True) := by
  refine .scopes located fun before named => ?_
  cases found : ask before.tree with
  | some value => exact .inl ⟨value, _, _, readTree_ok.mpr ⟨found, rfl⟩, named, trivial⟩
  | none => exact .inr (readTree_of_none found)

theorem changeTree {change : FrameTree → Option (α × FrameTree)} (located : setting.form.HasSpan span)
    (keeps : ∀ before value after, change before = some (value, after) → before.SameLifts after) :
    Routine setting self (fun _ => changeTree span change) (Silent fun _ => True) := by
  refine .scopes located fun before named => ?_
  cases changed : change before.tree with
  | some answer =>
    obtain ⟨value, tree⟩ := answer
    refine .inl ⟨value, tree, _, changeTree_ok.mpr ⟨tree, changed, rfl⟩, ?_, trivial⟩
    exact named.sameLifts (keeps _ _ _ changed)
  | none => exact .inr (changeTree_of_none changed)

theorem openFrame {cx : Context} {kind : FrameKind} :
    Routine setting self (fun _ => openFrame cx kind) (Silent fun _ => True) := by
  refine .scopes setting.form.hasSpan_self fun before named => ?_
  refine .inl ⟨_, _, _, openFrame_ok.mpr ⟨_, rfl, rfl⟩, ?_, trivial⟩
  exact named.sameLifts (FrameTree.openFrame_sameLifts rfl)

theorem bindLocal {frame : FrameId} {name : Symbol} {initial : Option Expr} {needsBox : Bool}
    (located : setting.form.HasSpan span) :
    Routine setting self (fun _ => bindLocal span frame name initial needsBox) (Silent fun _ => True) :=
  .changeTree located fun _ _ _ => FrameTree.bind_sameLifts

theorem useBinding {cx : Context} {found : Found BindingId} (located : setting.form.HasSpan span) :
    Routine setting self (fun _ => useBinding span cx found) (Silent fun _ => True) := by
  refine .changeTree located fun before binding after used => ?_
  simp only [Option.bind_eq_bind, Option.bind_eq_some_iff, Option.pure_def, Option.some.injEq,
    Prod.mk.injEq, Prod.exists] at used
  obtain ⟨id, between, captured, _, noted, rfl, rfl⟩ := used
  exact (FrameTree.use_captures captured noted).sameLifts

theorem useSelf {cx : Context} {found : Found FrameId} (located : setting.form.HasSpan span) :
    Routine setting self (fun _ => useSelf span cx found) (Silent fun _ => True) := by
  refine .changeTree located fun before value after taken => ?_
  simp only [Option.map_eq_some_iff, Prod.mk.injEq, true_and, exists_eq_right] at taken
  exact (FrameTree.captureSelf_captures taken).sameLifts

/-- A change of one frame that leaves its vars and constants alone. -/
theorem updateFrame {frame : FrameId} {change : Frame → Frame} (located : setting.form.HasSpan span)
    (same : ∀ held : Frame, (change held).vars = held.vars ∧ (change held).constants = held.constants) :
    Routine setting self
      (fun _ => AnalysisM.changeTree span fun tree => (tree.updateFrame frame change).map ((), ·))
      (Silent fun _ => True) := by
  refine .changeTree located fun before value after updated => ?_
  simp only [Option.map_eq_some_iff, Prod.mk.injEq, true_and, exists_eq_right] at updated
  exact FrameTree.updateFrame_sameLifts updated same

theorem updateFunction {frame : FrameId} {change : FnContext → FnContext}
    (located : setting.form.HasSpan span) :
    Routine setting self (fun _ => updateFunction span frame change) (Silent fun _ => True) :=
  .updateFrame located fun _ => ⟨rfl, rfl⟩

theorem fillFunction {frame : FrameId} {context : FnContext} (located : setting.form.HasSpan span) :
    Routine setting self (fun _ => fillFunction span frame context) (Silent fun _ => True) :=
  .updateFrame located fun _ => ⟨rfl, rfl⟩

theorem fillLoop {frame : FrameId} {arity : Nat} (located : setting.form.HasSpan span) :
    Routine setting self (fun _ => fillLoop span frame arity) (Silent fun _ => True) :=
  .updateFrame located fun _ => ⟨rfl, rfl⟩

theorem freshName {name : String} :
    Routine setting self (fun _ => freshName name) (Silent fun _ => True) :=
  .scopes setting.form.hasSpan_self fun _ named =>
    .inl ⟨_, _, _, freshName_ok.mpr ⟨_, rfl, rfl⟩, named, trivial⟩

theorem lifting {lift : FrameTree → NameSupply → Option (α × FrameTree × NameSupply)}
    (located : setting.form.HasSpan span)
    (keeps : ∀ tree names value after rest, tree.Named → lift tree names = some (value, after, rest) →
      after.Named ∧ R value) :
    Routine setting self (fun _ => lifting span lift) (Silent R) := by
  refine .scopes located fun before named => ?_
  cases lifted : lift before.tree before.names with
  | some answer =>
    obtain ⟨value, tree, names⟩ := answer
    obtain ⟨named, holds⟩ := keeps _ _ _ _ _ named lifted
    exact .inl ⟨value, tree, names, lifting_ok.mpr ⟨tree, names, lifted, rfl⟩, named, holds⟩
  | none => exact .inr (lifting_of_none lifted)

theorem liftVar {cx : Context} {name : Symbol} (located : setting.form.HasSpan span) :
    Routine setting self (fun _ => liftVar span cx name) (Silent fun lifted => lifted.name = name) := by
  rw [liftVar_eq]
  exact .lifting located fun _ _ _ _ _ named lifted => named.liftVar lifted

theorem liftConstant {cx : Context} {value : Datum} (located : setting.form.HasSpan span) :
    Routine setting self (fun _ => liftConstant span cx value) (Silent fun _ => True) := by
  rw [liftConstant_eq]
  exact .lifting located fun _ _ _ _ _ named lifted => ⟨named.liftConstant lifted, trivial⟩

/-! ### The host -/

theorem askHost {ask : σ → α} :
    Routine setting self (fun _ => askHost ask) (Silent fun value =>
      ∃ world, setting.host.Reaches setting.start world ∧ value = ask world) := by
  intro steady before fits
  exact .ok .done ⟨rfl, _, fits.proper.reached, rfl⟩ fun _ _ => askHost_ok.mpr ⟨rfl, rfl⟩

/-- A var of the current namespace is interned. -/
theorem define {name : Symbol} {asked : σ} (reached : setting.host.Reaches setting.start asked) :
    Routine setting self
      (fun _ => runHost (setting.host.internVar (name.withNs (setting.host.currentNs asked))))
      fun var trace => trace = [.deed (.define var.name)] := by
  intro steady before fits
  exact .ok (.of_move (.define reached rfl)) rfl fun _ _ => rfl

/-- The keywords of a form are interned. -/
theorem keywords {part : Form} :
    Routine setting self (fun _ => runHost (part.constant setting.host.internKeyword))
      fun value trace => trace = (value.keywords.map .keyword).map .deed := by
  intro steady before fits
  exact .ok (.of_move (.keywords rfl)) rfl fun _ _ => rfl

/-- A text is read, or refused by the reader. -/
theorem read {text : String} (located : setting.form.HasSpan span) :
    Routine setting self (fun _ => tryHost (setting.host.readFragment text span) >>= settle)
      (Silent fun forms => ∃ world after, setting.host.Reaches setting.start world ∧
        setting.host.readFragment text span world = .ok forms after) := by
  intro steady before fits
  cases answer : setting.host.readFragment text span before.world with
  | ok forms world =>
    refine .ok (.of_move (.read answer)) ⟨rfl, _, _, fits.proper.reached, answer⟩ fun _ _ => ?_
    exact tryHost_bind_of_ok answer
  | error diagnostic world =>
    refine .breaks .done (.unread located fits.proper.reached answer) fun _ _ => ?_
    exact tryHost_bind_of_error answer

end Routine

end LispScope
