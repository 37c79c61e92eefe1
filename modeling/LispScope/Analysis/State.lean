import LispScope.Analysis.Context
import LispScope.Config
import LispScope.Frame.Capture
import LispScope.Frame.Lift
import LispScope.Host

/-!
# The state of an analysis

An analysis runs over the state of its host, the frames of the form, the supply of names and the
macro calls that are being expanded. It may be refused with a diagnostic; then the state that was
reached stays, since definitions and names made so far are not taken back. It may also run out of the
depth it was given, which says nothing about the form. The steps here are the only ones that touch the
state; one that meets a number of no frame or binding refuses with an internal fault.
-/
namespace LispScope

/-- Why an analysis has no result. -/
inductive Halt
  /-- The given depth was not enough. -/
  | exhausted
  /-- The form is refused. -/
  | refused (diagnostic : Diagnostic)

/-- What an analysis changes. -/
structure State (σ : Type) where
  world : σ
  /-- The frames and bindings of the form. -/
  tree : FrameTree
  names : NameSupply
  /-- The macro calls whose expansion is being analyzed, outermost first. -/
  expansions : List Form

/-- With one more macro call on the stack. -/
def State.pushed (state : State σ) (call : Form) : State σ :=
  { state with expansions := state.expansions ++ [call] }

/-- Without the last macro call on the stack. -/
def State.popped (state : State σ) : State σ :=
  { state with expansions := state.expansions.dropLast }

/-- Steps of an analysis. -/
abbrev AnalysisM (σ : Type) := EStateM Halt (State σ)

/-- What an analysis is run with. -/
structure Analyzer (σ : Type) where
  host : Host σ
  config : Config

/-- How a form is analyzed at a place. The analysis of a form is built from that of its parts. -/
abbrev Recursion (σ : Type) := Context → Form → AnalysisM σ Expr

namespace AnalysisM

variable {σ α : Type}

def refuse (fault : Fault) (span : Span) : AnalysisM σ α := throw (.refused (fault.diagnose span))

/-- Takes over what was found out without the state. -/
def settle : Except Diagnostic α → AnalysisM σ α
  | .ok value => return value
  | .error diagnostic => throw (.refused diagnostic)

/-- Takes over what must exist if the tables of scopes are in order. -/
def demand (span : Span) : Option α → AnalysisM σ α
  | some value => return value
  | none => refuse .brokenScopes span

def readTree (span : Span) (ask : FrameTree → Option α) : AnalysisM σ α := do
  demand span (ask (← get).tree)

def changeTree (span : Span) (change : FrameTree → Option (α × FrameTree)) : AnalysisM σ α := do
  let (value, tree) ← demand span (change (← get).tree)
  modify fun state => { state with tree }
  return value

def askHost (ask : σ → α) : AnalysisM σ α := return ask (← get).world

/-- Lets the host change its state. -/
def runHost (act : StateM σ α) : AnalysisM σ α := do
  let (value, world) := act (← get).world
  modify fun state => { state with world }
  return value

/-- Lets the host change its state and tells whether it succeeded. -/
def tryHost (act : EStateM Diagnostic σ α) : AnalysisM σ (Except Diagnostic α) := do
  match act (← get).world with
  | .ok value world =>
    modify fun state => { state with world }
    return .ok value
  | .error diagnostic world =>
    modify fun state => { state with world }
    return .error diagnostic

def pushExpansion (call : Form) : AnalysisM σ Unit :=
  modify fun state => state.pushed call

def popExpansion : AnalysisM σ Unit := modify State.popped

/-- Notes the macro calls on the stack on the diagnostic of an analysis that is refused, as the stack
stands then. -/
def noting (analysis : AnalysisM σ α) : AnalysisM σ α := fun state =>
  match analysis state with
  | .error (.refused diagnostic) state =>
    .error (.refused (diagnostic.noteExpansions state.expansions)) state
  | outcome => outcome

/-- Takes a last step after an analysis, whatever came of it. -/
def finishing (last : AnalysisM σ Unit) (analysis : AnalysisM σ α) : AnalysisM σ α := fun state =>
  match analysis state with
  | .ok value state => (do last; return value) state
  | .error halt state => (do last; throw halt) state

def freshName (name : String) : AnalysisM σ String := do
  let (identifier, names) := (← get).names.fresh name
  modify fun state => { state with names }
  return identifier

def openFrame (cx : Context) (kind : FrameKind) : AnalysisM σ FrameId :=
  modifyGet fun state =>
    let (id, tree) := state.tree.openFrame kind cx.frame
    (id, { state with tree })

def bindLocal (span : Span) (frame : FrameId) (name : Symbol) (initial : Option Expr)
    (needsBox : Bool) : AnalysisM σ BindingId :=
  changeTree span fun tree => tree.bind frame name initial needsBox

/-- What a name refers to inside the form. -/
def resolve (span : Span) (cx : Context) (name : Symbol) : AnalysisM σ (Option (Found Referent)) :=
  readTree span fun tree => (tree.lineage cx.frame).map fun lineage => lineage.resolve name

/-- Uses a binding at a place: captures it on the way and notes the use of what the place refers to.
Gives what the place refers to. -/
def useBinding (span : Span) (cx : Context) (found : Found BindingId) : AnalysisM σ BindingId :=
  changeTree span fun tree => do
    let (id, tree) ← tree.capture found
    return (id, ← tree.noteUse id cx.boxed)

/-- Refers to an enclosing function at a place. -/
def useSelf (span : Span) (cx : Context) (found : Found FrameId) : AnalysisM σ Unit :=
  changeTree span fun tree => (tree.captureSelf cx.frame found).map ((), ·)

/-- Fills in what the frame of an arity knows about its function. -/
def fillFunction (span : Span) (frame : FrameId) (context : FnContext) : AnalysisM σ Unit :=
  changeTree span fun tree => (tree.updateFrame frame (Frame.fillFunction context)).map ((), ·)

/-- Fills in the number of names of a loop. -/
def fillLoop (span : Span) (frame : FrameId) (arity : Nat) : AnalysisM σ Unit :=
  changeTree span fun tree => (tree.updateFrame frame (Frame.fillLoop arity)).map ((), ·)

/-- Changes what a frame knows about its function, if it knows anything. -/
def updateFunction (span : Span) (frame : FrameId) (change : FnContext → FnContext) :
    AnalysisM σ Unit :=
  changeTree span fun tree => (tree.updateFrame frame (Frame.updateFunction change)).map ((), ·)

def liftVar (span : Span) (cx : Context) (name : Symbol) : AnalysisM σ LiftedVar := do
  let state ← get
  let (lifted, tree, names) ← demand span (state.tree.liftVar state.names cx.frame name)
  set { state with tree, names }
  return lifted

def liftConstant (span : Span) (cx : Context) (value : Datum) : AnalysisM σ LiftedConstant := do
  let state ← get
  let (lifted, tree, names) ← demand span (state.tree.liftConstant state.names cx.frame value)
  set { state with tree, names }
  return lifted

end AnalysisM

end LispScope
