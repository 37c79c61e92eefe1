import LispScope.Config
import LispScope.Host
import LispScope.Host.Expander
import LispScope.Table

/-!
# Namespaces

A host that keeps its vars in tables. A var belongs to a namespace and is plain or a macro. An
unqualified symbol stands for the var of the current namespace, unless only the core namespace has
one of that name. A qualified symbol stands for itself, unless its namespace is an alias in the
current namespace. Definitions go to the namespace that they name, aliases or not.
-/
namespace LispScope

/-- Reads the forms in a piece of text that stands at a span. -/
abbrev FragmentReader := String → Span → Except Diagnostic (List Form)

/-- The state of a host that keeps its vars in tables. -/
structure Namespaces where
  /-- The current namespace. -/
  current : String
  /-- The vars by qualified name; a macro has an expander. -/
  vars : Table Symbol (Option Expander)
  /-- The namespace that an alias stands for, by the namespace that has the alias and the alias. -/
  aliases : Table (String × String) String
  /-- The keywords handed out so far, each once, oldest first. -/
  keywords : List Symbol
  /-- Reads pieces of text, if that is possible at all. -/
  reader : Option FragmentReader

namespace Namespaces

/-- No vars, aliases or keywords, and no reader. -/
def inside (current : String) : Namespaces := ⟨current, .empty, .empty, [], none⟩

/-- Makes another namespace the current one. -/
def enter (spaces : Namespaces) (ns : String) : Namespaces := { spaces with current := ns }

/-- The namespace that a definition of the symbol goes to. -/
def owner (spaces : Namespaces) (symbol : Symbol) : String := symbol.ns.getD spaces.current

/-- Puts a var into its table and returns it. -/
def define (spaces : Namespaces) (symbol : Symbol) (expander : Option Expander) :
    Var × Namespaces :=
  let name := symbol.withNs (spaces.owner symbol)
  (⟨name, expander.isSome⟩, { spaces with vars := spaces.vars.insert name expander })

/-- Defines a plain var. -/
def defineVar (spaces : Namespaces) (symbol : Symbol) : Var × Namespaces :=
  spaces.define symbol none

def defineMacro (spaces : Namespaces) (symbol : Symbol) (expander : Expander) : Var × Namespaces :=
  spaces.define symbol (some expander)

/-- Defines plain vars of the core namespace. -/
def defineCoreFns (spaces : Namespaces) (names : List String) : Namespaces :=
  names.foldl (fun spaces name => (spaces.defineVar (.qualified coreNs name)).2) spaces

/-- Makes `alias/x` stand for `target/x` in the current namespace. -/
def addAlias (spaces : Namespaces) (shorthand target : String) : Namespaces :=
  { spaces with aliases := spaces.aliases.insert (spaces.current, shorthand) target }

/-- Makes it possible to read pieces of text. -/
def withReader (spaces : Namespaces) (reader : FragmentReader) : Namespaces :=
  { spaces with reader := some reader }

/-- Whether a namespace has a var of the given name. -/
def hasVar (spaces : Namespaces) (ns name : String) : Bool :=
  spaces.vars.contains (.qualified ns name)

/-- The qualified name that a symbol stands for. -/
def qualify (spaces : Namespaces) (symbol : Symbol) : Symbol :=
  match symbol.ns with
  | some ns =>
    match spaces.aliases.get? (spaces.current, ns) with
    | some target => symbol.withNs target
    | none => symbol
  | none =>
    if !spaces.hasVar spaces.current symbol.name && spaces.hasVar coreNs symbol.name then
      symbol.withNs coreNs
    else symbol.withNs spaces.current

/-- What the tables hold for a symbol. -/
def lookup (spaces : Namespaces) (symbol : Symbol) : Option (Option Expander) :=
  spaces.vars.get? (spaces.qualify symbol)

/-- The var that a symbol stands for. -/
def findVar (spaces : Namespaces) (symbol : Symbol) : Option Var :=
  (spaces.lookup symbol).map fun expander => ⟨spaces.qualify symbol, expander.isSome⟩

/-- The var of a definition. An existing var is kept, provided that it belongs to the namespace of
the definition; one that is only referred to from there is shadowed by a new plain var. -/
def internVar (symbol : Symbol) : StateM Namespaces Var := fun spaces =>
  match spaces.findVar symbol with
  | some var =>
    if var.name.ns = some (spaces.owner symbol) then (var, spaces) else spaces.defineVar symbol
  | none => spaces.defineVar symbol

/-- The shared keyword of a name. -/
def internKeyword (name : Symbol) : StateM Namespaces Symbol := fun spaces =>
  if spaces.keywords.contains name then (name, spaces)
  else (name, { spaces with keywords := spaces.keywords ++ [name] })

/-- Expands a call once if its head stands for a macro. -/
def expandOnce (spaces : Namespaces) (form : Form) : Except Diagnostic Form :=
  match form.head?.bind spaces.lookup with
  | some (some expander) => expander form
  | _ => return form

/-- Reads a piece of text, if there is a reader. -/
def readFragment (spaces : Namespaces) (text : String) (span : Span) :
    Except Diagnostic (List Form) :=
  match spaces.reader with
  | some reader => reader text span
  | none => throw ((Fault.host "no fragment reader configured").diagnose span)

def host : Host Namespaces where
  currentNs := current
  qualify := qualify
  findVar := findVar
  internVar := internVar
  internKeyword := internKeyword
  expandOnce form := fun spaces =>
    match spaces.expandOnce form with
    | .ok expansion => .ok expansion spaces
    | .error diagnostic => .error diagnostic spaces
  readFragment text span := fun spaces =>
    match spaces.readFragment text span with
    | .ok forms => .ok forms spaces
    | .error diagnostic => .error diagnostic spaces

theorem lookup_eq_some_of_findVar {spaces : Namespaces} {symbol : Symbol} {var : Var}
    (found : spaces.findVar symbol = some var) :
    ∃ expander, spaces.lookup symbol = some expander ∧
      var = ⟨spaces.qualify symbol, expander.isSome⟩ := by
  simp only [findVar, Option.map_eq_some_iff] at found
  obtain ⟨expander, held, rfl⟩ := found
  exact ⟨expander, held, rfl⟩

end Namespaces

end LispScope
