import LispScope.Form

/-!
# Diagnostics

A diagnostic says what went wrong, where, and why. Its *kind* has a stable identifier of the form
`family/kind`. It may carry notes at other places, the macro calls that were being expanded, and the
chain of diagnostics that caused it, the direct cause first.
-/
namespace LispScope

/-- The stage that a kind of diagnostic belongs to. -/
inductive Family
  | lex
  | parse
  | analyze
  | codegen
  | runtime
  | internal
deriving DecidableEq, Inhabited, Repr

def Family.text : Family → String
  | lex => "lex"
  | parse => "parse"
  | analyze => "analyze"
  | codegen => "codegen"
  | runtime => "runtime"
  | internal => "internal"

/-- The kinds of diagnostic. -/
inductive Kind
  | unexpectedCharacter
  | unexpectedEnd
  | unbalancedCollection
  | oddMapEntries
  | invalidDef
  | invalidFn
  | invalidFnParameters
  | invalidRecurPosition
  | invalidRecurFromTry
  | invalidRecurArgs
  | invalidLet
  | invalidLetfn
  | invalidLoop
  | invalidIf
  | invalidQuote
  | invalidVarReference
  | invalidThrow
  | invalidTry
  | invalidCase
  | invalidNativeRaw
  | unresolvedVar
  | unresolvedSymbol
  | expansionFailure
  | codegenFailure
  | runtimeFailure
  | internalFailure
deriving DecidableEq, Inhabited, Repr

namespace Kind

/-- The stage that a kind belongs to. -/
def family : Kind → Family
  | unexpectedCharacter => .lex
  | unexpectedEnd | unbalancedCollection | oddMapEntries => .parse
  | codegenFailure => .codegen
  | runtimeFailure => .runtime
  | internalFailure => .internal
  | _ => .analyze

/-- The part of the identifier after the family. -/
def stem : Kind → String
  | unexpectedCharacter => "unexpected-character"
  | unexpectedEnd => "unexpected-eof"
  | unbalancedCollection => "unbalanced-collection"
  | oddMapEntries => "odd-map-entries"
  | invalidDef => "invalid-def"
  | invalidFn => "invalid-fn"
  | invalidFnParameters => "invalid-fn-parameters"
  | invalidRecurPosition => "invalid-recur-position"
  | invalidRecurFromTry => "invalid-recur-from-try"
  | invalidRecurArgs => "invalid-recur-args"
  | invalidLet => "invalid-let"
  | invalidLetfn => "invalid-letfn"
  | invalidLoop => "invalid-loop"
  | invalidIf => "invalid-if"
  | invalidQuote => "invalid-quote"
  | invalidVarReference => "invalid-var-reference"
  | invalidThrow => "invalid-throw"
  | invalidTry => "invalid-try"
  | invalidCase => "invalid-case"
  | invalidNativeRaw => "invalid-native-raw"
  | unresolvedVar => "unresolved-var"
  | unresolvedSymbol => "unresolved-symbol"
  | expansionFailure => "macro-expansion-exception"
  | codegenFailure => "failure"
  | runtimeFailure => "failure"
  | internalFailure => "analyze-failure"

/-- The stable identifier, `family/kind`. -/
def id (kind : Kind) : String := kind.family.text ++ "/" ++ kind.stem

/-- Whether the kind points at a fault of the analysis itself and not of its input. -/
def isInternal (kind : Kind) : Bool := kind.family = .internal

def all : List Kind :=
  [unexpectedCharacter, unexpectedEnd, unbalancedCollection, oddMapEntries, invalidDef, invalidFn,
   invalidFnParameters, invalidRecurPosition, invalidRecurFromTry, invalidRecurArgs, invalidLet,
   invalidLetfn, invalidLoop, invalidIf, invalidQuote, invalidVarReference, invalidThrow,
   invalidTry, invalidCase, invalidNativeRaw, unresolvedVar, unresolvedSymbol, expansionFailure,
   codegenFailure, runtimeFailure, internalFailure]

/-- The kind with a given identifier. -/
def ofId? (id : String) : Option Kind := all.find? fun kind => kind.id = id

end Kind

/-- How grave a note is. -/
inductive Severity
  | info
  | warning
  | error
deriving DecidableEq, Inhabited, Repr

def Severity.text : Severity → String
  | info => "note"
  | warning => "warning"
  | error => "error"

/-- A further message, with a place of its own. -/
structure Note where
  message : String
  span : Span
  severity : Severity
deriving DecidableEq, Inhabited, Repr

/-- One link in a chain of causes. -/
structure Incident where
  kind : Kind
  message : String
  span : Span
  /-- Further messages, oldest first. -/
  notes : List Note := []
  /-- The macro calls that were being expanded, outermost first. -/
  expansions : List Form := []
deriving Inhabited

/-- The text `kind: message`. -/
def Incident.text (incident : Incident) : String := incident.kind.id ++ ": " ++ incident.message

/-- An incident with the chain of its causes. -/
structure Diagnostic extends Incident where
  /-- The causes, the direct one first. -/
  causes : List Incident := []
deriving Inhabited

namespace Diagnostic

/-- A diagnostic with neither notes nor causes. -/
def of (kind : Kind) (message : String) (span : Span) : Diagnostic := { kind, message, span }

/-- The diagnostic followed by its causes, outermost first. -/
def chain (diagnostic : Diagnostic) : List Incident :=
  diagnostic.toIncident :: diagnostic.causes

/-- Adds a note behind the earlier ones. -/
def withNote (diagnostic : Diagnostic) (note : Note) : Diagnostic :=
  { diagnostic with notes := diagnostic.notes ++ [note] }

/-- Names what caused the diagnostic, in place of any earlier cause. -/
def withCause (diagnostic cause : Diagnostic) : Diagnostic :=
  { diagnostic with causes := cause.chain }

/-- Sets the macro calls that were being expanded. -/
def withExpansions (diagnostic : Diagnostic) (expansions : List Form) : Diagnostic :=
  { diagnostic with expansions }

/-- Notes the macro calls that were being expanded, unless some are noted already. -/
def noteExpansions (diagnostic : Diagnostic) (expansions : List Form) : Diagnostic :=
  if diagnostic.expansions.isEmpty then diagnostic.withExpansions expansions else diagnostic

/-- The text `kind: message`. -/
def text (diagnostic : Diagnostic) : String := diagnostic.toIncident.text

instance : ToString Diagnostic := ⟨text⟩

end Diagnostic

end LispScope
