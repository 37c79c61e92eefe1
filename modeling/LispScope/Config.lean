import LispScope.Symbol

/-!
# Options of the analysis

Which vars are operators that take their operands unboxed, and how many parameters a function may
have. The core namespace is the one whose vars are visible in every namespace.
-/
namespace LispScope

/-- The namespace that is referred to from all others. -/
def coreNs : String := "clojure.core"

/-- Options of the analysis. -/
structure Config where
  /-- Qualified names of the vars whose operands may stay unboxed. -/
  unboxedOps : List Symbol
  /-- The greatest number of parameters of an arity, the rest parameter included. -/
  maxParams : Nat
deriving DecidableEq, Inhabited, Repr

namespace Config

/-- The arithmetic and comparison functions of the core namespace. -/
def standardOps : List String :=
  ["+", "-", "*", "/", "<", ">", "<=", ">=", "==", "inc", "dec", "quot", "rem", "min", "max",
   "zero?", "pos?", "neg?"]

def standard : Config := ⟨standardOps.map (.qualified coreNs), 20⟩

/-- No operator takes its operands unboxed. -/
def boxedOnly : Config := { standard with unboxedOps := [] }

/-- Lets an operator take its operands unboxed. -/
def withUnboxedOp (config : Config) (op : Symbol) : Config :=
  { config with unboxedOps := config.unboxedOps.insert op }

def withMaxParams (config : Config) (count : Nat) : Config := { config with maxParams := count }

/-- Whether a var is an operator that takes its operands unboxed. -/
def isUnboxedOp (config : Config) (name : Symbol) : Bool := config.unboxedOps.contains name

end Config

end LispScope
