import LispScope.Host.Namespaces
import LispScope.Source.Read

/-!
# The standard namespaces

A `user` namespace with a handful of core functions and five core macros. The expansions carry the
span of the call on every node that is not taken over from it:

* `(when c body*)` stands for `(if c (do body*))`;
* `(unless c body*)` stands for `(when (nil? c) body*)`;
* `(defn name rest*)` stands for `(def name (fn* name rest*))`;
* `(broken)` stands for `(if)`, which no analysis accepts;
* `(boom)` is refused.

Pieces of text are read as source; what is wrong with them is reported at the given span.
-/
namespace LispScope.Standard

/-- The core functions. -/
def functions : List String :=
  ["+", "-", "*", "/", "<", ">", "=", "inc", "dec", "str", "println", "conj", "list", "vector",
   "count", "first", "rest", "nil?"]

/-- The list of a head symbol and further items, at the span of a call. -/
def headed (span : Span) (head : String) (items : List Form) : Form :=
  .list (.symbol (.parse head) span :: items) span

/-- `(when c body*)`. -/
def expandWhen : Expander := fun call =>
  match Expander.arguments call with
  | condition :: body =>
    return headed call.span "if" [condition, headed call.span "do" body]
  | [] => Expander.refuse "when requires a condition" call

/-- `(unless c body*)`. -/
def expandUnless : Expander := fun call =>
  match Expander.arguments call with
  | condition :: body =>
    return headed call.span "when" (headed call.span "nil?" [condition] :: body)
  | [] => Expander.refuse "unless requires a condition" call

/-- `(defn name rest*)`. -/
def expandDefn : Expander := fun call =>
  match Expander.arguments call with
  | name :: rest =>
    return headed call.span "def" [name, headed call.span "fn*" (name :: rest)]
  | [] => Expander.refuse "defn requires a name" call

/-- `(broken)`. -/
def expandBroken : Expander := fun call => return headed call.span "if" []

/-- `(boom)`. -/
def expandBoom : Expander := Expander.refuse "boom went off"

/-- The core macros. -/
def macros : List (String × Expander) :=
  [("when", expandWhen), ("unless", expandUnless), ("defn", expandDefn), ("broken", expandBroken),
   ("boom", expandBoom)]

/-- Reads a piece of text as source. -/
def readFragment : FragmentReader := fun text span =>
  match Source.readAll text with
  | .ok forms => return forms
  | .error error => throw ((Fault.host error.message).diagnose span)

/-- The standard namespaces. -/
def namespaces : Namespaces :=
  let core := (Namespaces.inside "user").defineCoreFns functions
  (macros.foldl (fun spaces (name, expander) =>
    (spaces.defineMacro (.qualified coreNs name) expander).2) core).withReader readFragment

end LispScope.Standard
