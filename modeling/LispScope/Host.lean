import LispScope.Diagnostic.Fault

/-!
# Hosts

The analysis owns no global state. What it has to know about namespaces, vars, keywords and macros
it asks of a *host*: a record of operations over a state that the host alone understands. The
operations that may fail keep the state they have reached.
-/
namespace LispScope

/-- A var that a symbol was resolved to. -/
structure Var where
  name : Symbol
  /-- Whether calls of the var are macro calls. -/
  isMacro : Bool
deriving DecidableEq, Inhabited, Repr

/-- The operations that the analysis needs, over a state `σ`. -/
structure Host (σ : Type) where
  /-- The namespace in which forms are analyzed. -/
  currentNs : σ → String
  /-- The qualified name that a symbol stands for. -/
  qualify : σ → Symbol → Symbol
  /-- The var that a symbol stands for. -/
  findVar : σ → Symbol → Option Var
  /-- The var of a definition, created if it does not exist. -/
  internVar : Symbol → StateM σ Var
  /-- The shared keyword of a name. -/
  internKeyword : Symbol → StateM σ Symbol
  /-- Expands a macro call once. Any other form comes back as it is. -/
  expandOnce : Form → EStateM Diagnostic σ Form
  /-- Reads the forms in a piece of text that stands at the given span. -/
  readFragment : String → Span → EStateM Diagnostic σ (List Form)

/-- The same host, except that it refuses to read pieces of text. -/
def Host.withoutFragments (host : Host σ) : Host σ :=
  { host with
    readFragment := fun _ span =>
      throw ((Fault.host "this runtime cannot read source fragments").diagnose span) }

end LispScope
