import LispScope.Symbol

/-!
# Special forms

The symbols that make a list a special form. They are special wherever they stand at the head of a
list, even where a local name is spelled the same.
-/
namespace LispScope

/-- The special forms. -/
inductive Special
  | define
  | function
  | lets
  | letfns
  | loop
  | sequence
  | branch
  | quotation
  | varObject
  | throwing
  | guarded
  | dispatch
  | recur
  | native
deriving DecidableEq, Inhabited, Repr

/-- The special form that a head symbol stands for. -/
def Special.ofSymbol? (head : Symbol) : Option Special :=
  match head.ns with
  | none =>
    [("def", define), ("fn*", function), ("let*", lets), ("letfn*", letfns), ("loop*", loop),
     ("do", sequence), ("if", branch), ("quote", quotation), ("var", varObject),
     ("throw", throwing), ("try", guarded), ("case*", dispatch), ("recur", recur)].lookup head.name
  | some ns => if ns = "native" ∧ head.name = "raw" then some native else none

end LispScope
