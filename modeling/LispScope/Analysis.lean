import LispScope.Analysis.Application
import LispScope.Analysis.Control
import LispScope.Analysis.Define
import LispScope.Analysis.Function
import LispScope.Analysis.Local
import LispScope.Analysis.Native
import LispScope.Analysis.Recur
import LispScope.Special

/-!
# Analysis

The analysis turns forms into expressions. It is given by one step, `analyzeStep`, which analyzes a
form when it is told how to analyze other forms; `analyzeForm` closes the step up to a bounded
depth. The depth is needed because macros and interpolated text bring in new forms: nothing bounds
what a host may expand to. A depth that is enough once stays enough, so it is no part of the answer.

A session analyzes forms one after the other. Each form begins with frames of its own and with no
macro call open; only the state of the host and the supply of names go on from one form to the next,
whether it was refused or not.
-/
namespace LispScope

open AnalysisM

variable {σ : Type}

/-- A special form with the given arguments. -/
def analyzeSpecial (analyzer : Analyzer σ) (self : Recursion σ) (cx : Context) (special : Special)
    (args : List Form) (span : Span) : AnalysisM σ Expr :=
  match special with
  | .define => analyzeDef analyzer self cx args span
  | .function => analyzeFunction analyzer self cx args span
  | .lets => analyzeLet self false cx args span
  | .loop => analyzeLet self true cx args span
  | .letfns => analyzeLetfn self cx args span
  | .sequence => analyzeDo self cx args span
  | .branch => analyzeIf self cx args span
  | .quotation => analyzeQuote analyzer cx args span
  | .varObject => analyzeVar analyzer cx args span
  | .throwing => analyzeThrow self cx args span
  | .guarded => analyzeTry self cx args span
  | .dispatch => analyzeCase self cx args span
  | .recur => analyzeRecur self cx args span
  | .native => analyzeNative analyzer self cx args span

def analyzeList (analyzer : Analyzer σ) (self : Recursion σ) (cx : Context) (head : Form)
    (args : List Form) (span : Span) : AnalysisM σ Expr :=
  match head.symbol?.bind Special.ofSymbol? with
  | some special => analyzeSpecial analyzer self cx special args span
  | none => analyzeApplication analyzer self cx head args span

/-- A form, when it is known how to analyze other forms. -/
def analyzeStep (analyzer : Analyzer σ) (self : Recursion σ) (cx : Context) (form : Form) :
    AnalysisM σ Expr :=
  match form with
  | .symbol symbol span => analyzeSymbol analyzer cx symbol span
  | .list (head :: args) span => analyzeList analyzer self cx head args span
  | form =>
    if form.isConstant then analyzeQuoted analyzer cx form form.span
    else match form with
      | .vector items span => do
        let items ← analyzeOperands self cx.operand items
        return cx.expr (.vector items) span
      | .set items span => do
        let items ← analyzeOperands self cx.operand items
        return cx.expr (.set items) span
      | .map entries span => do
        let entries ← analyzeEntries self cx entries
        return cx.expr (.map entries) span
      | form => analyzeQuoted analyzer cx form form.span

/-- A form at a place, nested no deeper than the given depth. -/
def analyzeForm (analyzer : Analyzer σ) : Nat → Recursion σ
  | 0 => fun _ _ => throw .exhausted
  | depth + 1 => analyzeStep analyzer (analyzeForm analyzer depth)

/-- The result for one form. -/
structure Analysis where
  expr : Expr
  /-- The frames and bindings that the expression refers to. -/
  tree : FrameTree

/-- What goes on from one form to the next. -/
structure Session (σ : Type) where
  world : σ
  names : NameSupply
  /-- The macro calls that the last form has left open. -/
  expansions : List Form

namespace Session

/-- A session over a host in the given state. -/
def start (world : σ) : Session σ := ⟨world, .initial, []⟩

/-- Analyzes one form. -/
def analyze (analyzer : Analyzer σ) (depth : Nat) (form : Form) :
    StateM (Session σ) (Except Halt Analysis) := fun session =>
  match analyzeForm analyzer depth .topLevel form
      ⟨session.world, .initial, session.names, []⟩ with
  | .ok expr state => (.ok ⟨expr, state.tree⟩, ⟨state.world, state.names, state.expansions⟩)
  | .error halt state => (.error halt, ⟨state.world, state.names, state.expansions⟩)

/-- Analyzes forms one after the other; a refused form does not stop those after it. -/
def analyzeAll (analyzer : Analyzer σ) (depth : Nat) (forms : List Form) :
    StateM (Session σ) (List (Except Halt Analysis)) :=
  forms.mapM (analyze analyzer depth)

end Session

/-- A depth beyond that of every form that is written down. -/
def ampleDepth : Nat := 1000000

end LispScope
