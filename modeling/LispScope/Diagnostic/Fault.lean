import LispScope.Diagnostic

/-!
# Faults of a program

The reasons for which a form is refused. A fault becomes a diagnostic at a span; its kind and its
wording are fixed here and nowhere else.
-/
namespace LispScope

/-- The forms that bind names in a vector of pairs. -/
inductive Binder
  | lets
  | loop
  | letfn
deriving DecidableEq, Inhabited, Repr

/-- The symbol that a binding form begins with. -/
def Binder.text : Binder → String
  | lets => "let*"
  | loop => "loop*"
  | letfn => "letfn*"

/-- The kind of a fault in a binding form. -/
def Binder.kind : Binder → Kind
  | lets => .invalidLet
  | loop => .invalidLoop
  | letfn => .invalidLetfn

/-- The integers that a dispatch form is made of. -/
inductive CasePart
  | shift
  | mask
  | key
deriving DecidableEq, Inhabited, Repr

def CasePart.text : CasePart → String
  | shift => "shift"
  | mask => "mask"
  | key => "key"

/-- A reason for which a form is refused. Where a form is not of the expected type the fault holds
either its written form or the word for its type. -/
inductive Fault
  | defShape
  | defName (type : String)
  | defElsewhere (name : Symbol) (current : String)
  | defDoc (type : String)
  | bindingVector (binder : Binder)
  | oddBindings (binder : Binder)
  | bindingName (binder : Binder) (written : String)
  | letfnValue (name : Symbol)
  | fnName (name : Symbol)
  | fnShape
  | fnArity (written : String)
  | secondVariadic
  | sameArity (count : Nat)
  | fixedAboveVariadic
  | restMissing
  | restRepeated
  | restName (written : String)
  | paramName (written : String)
  | tooManyParams (limit found : Nat)
  | ifShape (found : Nat)
  | quoteShape
  | varShape
  | varTarget (type : String)
  | throwShape
  | bodyAfterClause
  | finallyNotLast
  | secondCatch
  | catchShape
  | catchParts (type name : String)
  | caseShape
  | caseInteger (part : CasePart) (type : String)
  | caseBranches (type : String)
  | recurNotTail
  | recurOutside
  | recurFromTry
  | recurArgs (expected found : Nat)
  | rawShape
  | rawText (type : String)
  | rawUnterminated
  | rawForms (found : Nat)
  | unresolvedVar (name : Symbol)
  | unresolvedSymbol (name : Symbol)
  | expansion (written : String)
  /-- Refused by the host for a reason of its own. -/
  | host (reason : String)
  /-- The tables of scopes refer to something that they do not hold. -/
  | brokenScopes
  /-- The frames around a `recur` do not end at a root. -/
  | rootlessScopes
  /-- The function that a `recur` jumps back to is not known in its frame. -/
  | unsetFunction
  /-- The number of names of the loop that a `recur` jumps back to is not known in its frame. -/
  | unsetLoop
  /-- The function that calls itself is not known in its frame. -/
  | unsetSelf
deriving DecidableEq, Inhabited, Repr

namespace Fault

def kind : Fault → Kind
  | defShape | defName _ | defElsewhere .. | defDoc _ => .invalidDef
  | bindingVector binder | oddBindings binder | bindingName binder _ => binder.kind
  | letfnValue _ => .invalidLetfn
  | fnName _ | fnShape | fnArity _ | secondVariadic | sameArity _ | fixedAboveVariadic => .invalidFn
  | restMissing | restRepeated | restName _ | paramName _ | tooManyParams .. => .invalidFnParameters
  | ifShape _ => .invalidIf
  | quoteShape => .invalidQuote
  | varShape | varTarget _ => .invalidVarReference
  | throwShape => .invalidThrow
  | bodyAfterClause | finallyNotLast | secondCatch | catchShape | catchParts .. => .invalidTry
  | caseShape | caseInteger .. | caseBranches _ => .invalidCase
  | recurNotTail | recurOutside => .invalidRecurPosition
  | recurFromTry => .invalidRecurFromTry
  | recurArgs .. => .invalidRecurArgs
  | rawShape | rawText _ | rawUnterminated | rawForms _ => .invalidNativeRaw
  | unresolvedVar _ => .unresolvedVar
  | unresolvedSymbol _ => .unresolvedSymbol
  | expansion _ => .expansionFailure
  | host _ => .runtimeFailure
  | brokenScopes | rootlessScopes | unsetFunction | unsetLoop | unsetSelf => .internalFailure

/-- The ending that puts a noun into the plural, for every number but one. -/
def plural (count : Nat) : String := if count = 1 then "" else "s"

def message : Fault → String
  | defShape => "def requires a name, an optional doc string and an optional value"
  | defName type => "def name must be a symbol, got " ++ type
  | defElsewhere name current =>
    "cannot def " ++ name.text ++ " from namespace " ++ current
      ++ "; qualified names must use the current namespace"
  | defDoc type => "def doc string must be a string, got " ++ type
  | bindingVector binder => binder.text ++ " requires a binding vector"
  | oddBindings binder => binder.text ++ " binding vector requires an even number of forms"
  | bindingName binder written =>
    binder.text ++ " binding name must be an unqualified symbol, got " ++ written
  | letfnValue name => "letfn* binding " ++ name.text ++ " must be a fn* form"
  | fnName name => "fn* name must be an unqualified symbol, got " ++ name.text
  | fnShape => "fn* requires a parameter vector or at least one arity list"
  | fnArity written =>
    "fn* arity must be a list starting with a parameter vector, got " ++ written
  | secondVariadic => "fn* can't have more than one variadic arity"
  | sameArity count => "fn* can't have two arities taking " ++ toString count ++ " parameters"
  | fixedAboveVariadic =>
    "fn* can't have a fixed arity with more parameters than the variadic arity"
  | restMissing => "missing rest parameter after &"
  | restRepeated => "only one parameter may follow &"
  | restName written => "rest parameter must be an unqualified symbol, got " ++ written
  | paramName written => "parameter must be an unqualified symbol, got " ++ written
  | tooManyParams limit found =>
    "functions take at most " ++ toString limit ++ " parameters, got " ++ toString found
  | ifShape found =>
    "if requires a condition, a then branch and an optional else branch, got " ++ toString found
      ++ " argument" ++ plural found
  | quoteShape => "quote requires exactly 1 argument"
  | varShape => "var requires exactly 1 argument"
  | varTarget type => "var requires a symbol, got " ++ type
  | throwShape => "throw requires exactly 1 argument"
  | bodyAfterClause => "try body forms must come before catch and finally"
  | finallyNotLast => "finally must be the last clause of try"
  | secondCatch => "try supports a single catch clause"
  | catchShape => "catch requires an exception type and a binding name"
  | catchParts type name =>
    "catch requires an exception type symbol and a binding name, got " ++ type ++ " and " ++ name
  | caseShape => "case* requires a value, shift, mask, default and a branch map"
  | caseInteger part type => "case* " ++ part.text ++ " must be an integer, got " ++ type
  | caseBranches type => "case* branches must be a map, got " ++ type
  | recurNotTail => "recur must be in tail position"
  | recurOutside => "recur must be inside a fn* or loop*"
  | recurFromTry => "cannot recur across a try boundary"
  | recurArgs expected found =>
    "recur expects " ++ toString expected ++ " argument" ++ plural expected ++ ", got "
      ++ toString found
  | rawShape => "native/raw requires exactly 1 argument"
  | rawText type => "native/raw requires a string, got " ++ type
  | rawUnterminated => "unterminated ~\x7b interpolation"
  | rawForms found =>
    "native/raw interpolation must contain exactly one form, got " ++ toString found
  | unresolvedVar name => "unable to resolve var '" ++ name.text ++ "'"
  | unresolvedSymbol name => "unable to resolve symbol '" ++ name.text ++ "'"
  | expansion written => "exception while expanding macro call " ++ written
  | host reason => reason
  | brokenScopes => "scope tables refer to a missing entry"
  | rootlessScopes => "frame chain does not end at the root"
  | unsetFunction => "fn frame has no function context"
  | unsetLoop => "loop frame has no recur arity"
  | unsetSelf => "named recursion target has no function context"

def diagnose (fault : Fault) (span : Span) : Diagnostic := .of fault.kind fault.message span

/-- The diagnostic of a macro call whose expander failed. -/
def expansionOf (call : Form) (cause : Diagnostic) : Diagnostic :=
  ((expansion call.text).diagnose call.span).withCause cause

end Fault

end LispScope
