import LispScope.Analysis.Leaf

/-!
# Definitions

`def` defines a var of the current namespace. The var is interned before its value is analyzed, so
that the value may refer to it.
-/
namespace LispScope

open AnalysisM

variable {σ : Type}

/-- The parts of a definition. -/
structure DefParts where
  /-- The name, in the current namespace if it is qualified. -/
  name : Symbol
  value : Option Form

namespace DefParts

/-- The forms of the name, of the comment and of the value in the items after `def`. -/
def split (items : List Form) (span : Span) :
    Except Diagnostic (Form × Option Form × Option Form) :=
  match items with
  | [name] => return (name, none, none)
  | [name, value] => return (name, none, some value)
  | [name, doc, value] => return (name, some doc, some value)
  | _ => throw (Fault.defShape.diagnose span)

/-- The name of a var that can be defined in a namespace. -/
def definable (current : String) (form : Form) : Except Diagnostic Symbol :=
  match form.symbol? with
  | none => throw ((Fault.defName form.typeName).diagnose form.span)
  | some name =>
    if name.ns.any (· ≠ current) then throw ((Fault.defElsewhere name current).diagnose form.span)
    else return name

/-- Refuses a comment that is no string. -/
def checkDoc (form : Form) : Except Diagnostic Unit :=
  if form.string?.isNone then throw ((Fault.defDoc form.typeName).diagnose form.span) else return ()

/-- The parts of the items after `def`, in a form at a span and in a namespace. -/
def ofItems (current : String) (items : List Form) (span : Span) : Except Diagnostic DefParts := do
  let (nameForm, doc, value) ← split items span
  let name ← definable current nameForm
  doc.forM checkDoc
  return ⟨name, value⟩

end DefParts

/-- `(def name)`, `(def name value)` or `(def name "doc" value)`. -/
def analyzeDef (analyzer : Analyzer σ) (self : Recursion σ) (cx : Context) (args : List Form)
    (span : Span) : AnalysisM σ Expr := do
  let current ← askHost analyzer.host.currentNs
  let parts ← settle (DefParts.ofItems current args span)
  let var ← runHost (analyzer.host.internVar (parts.name.withNs current))
  let lifted ← liftVar span cx var.name
  let value ← parts.value.mapM (self cx.operand)
  return cx.expr (.define lifted value) span

end LispScope
