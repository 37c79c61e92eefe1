/-!
# Symbols

A symbol is a name, possibly qualified by a namespace: `x`, `core/first`, `/`. Its text joins the
two parts with a slash. Reading a text back splits it at the first slash that has something on
both sides, so the division symbol `/` and names that begin or end with a slash stay unqualified.
Symbols are ordered with the unqualified ones first, then by namespace, then by name.
-/
namespace LispScope

/-- A name with an optional namespace. -/
structure Symbol where
  /-- The namespace, absent for an unqualified symbol. -/
  ns : Option String
  name : String
deriving DecidableEq, Ord, Inhabited, Repr

namespace Symbol

/-- The unqualified symbol of a name. -/
def simple (name : String) : Symbol := ⟨none, name⟩

def qualified (ns name : String) : Symbol := ⟨some ns, name⟩

/-- Whether the symbol names its namespace. -/
def isQualified (symbol : Symbol) : Bool := symbol.ns.isSome

/-- The same name in the given namespace. -/
def withNs (symbol : Symbol) (ns : String) : Symbol := ⟨some ns, symbol.name⟩

/-- Splits a text at its first slash, provided that both sides are inhabited. -/
def parse (text : String) : Symbol :=
  let ns := text.toList.takeWhile (· ≠ '/')
  match text.toList.dropWhile (· ≠ '/') with
  | [] => simple text
  | _ :: name =>
    if ns.isEmpty || name.isEmpty then simple text
    else qualified (String.ofList ns) (String.ofList name)

/-- The written form, `ns/name` or `name`. -/
def text (symbol : Symbol) : String :=
  match symbol.ns with
  | some ns => ns ++ "/" ++ symbol.name
  | none => symbol.name

instance : ToString Symbol := ⟨text⟩

@[simp] theorem withNs_ns (symbol : Symbol) (ns : String) : (symbol.withNs ns).ns = some ns := rfl

end Symbol

end LispScope
