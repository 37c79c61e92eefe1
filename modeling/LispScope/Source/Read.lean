import LispScope.Form
import LispScope.Source.Scan

/-!
# Reading forms

Tokens are assembled into forms over a stack of what is still open: collections that wait for
their closing bracket, and quote marks that wait for the form they quote. The quoted form `'x` is
read as the list `(quote x)`, in which the symbol stands at the quote mark. Of several faults in a
text the first one is reported.
-/
namespace LispScope.Source

/-- Something that waits for more tokens. -/
inductive Pending
  /-- A collection, with the span of its opening bracket and its items so far, newest first. -/
  | collection (opener : Opener) (opening : Span) (items : List Form)
  /-- A quote mark at a span. -/
  | quotation (mark : Span)

/-- The state of the assembly between two tokens. -/
structure Assembly where
  /-- What is open, innermost first. -/
  pending : List Pending
  /-- The forms that stand on their own, newest first. -/
  forms : List Form

namespace Assembly

/-- Nothing read yet. -/
def empty : Assembly := ⟨[], []⟩

/-- The list that a quote mark makes of a form. -/
def quoteForm (mark : Span) (form : Form) : Form :=
  .list [.symbol (.simple "quote") mark, form] { mark with stop := form.span.stop }

/-- Hands a completed form to what waits for it. -/
def deliver (form : Form) (forms : List Form) : List Pending → Assembly
  | [] => ⟨[], form :: forms⟩
  | .collection opener opening items :: pending =>
    ⟨.collection opener opening (form :: items) :: pending, forms⟩
  | .quotation mark :: pending => deliver (quoteForm mark form) forms pending

/-- The collection that its closing bracket completes. -/
def close (opener : Opener) (items : List Form) (span : Span) : Except ReadError Form :=
  match opener with
  | .seq shape => .ok (.seq shape items span)
  | .map =>
    match Form.pairs? items with
    | some entries => .ok (.map entries span)
    | none => .error .oddMap

/-- The place at which a span begins. -/
def placeOf (span : Span) : Place := ⟨span.start, span.line, span.col⟩

/-- Takes in one token. -/
def step (assembly : Assembly) (token : Token) : Except ReadError Assembly :=
  match token.lexeme with
  | .opening opener =>
    .ok { assembly with pending := .collection opener token.span [] :: assembly.pending }
  | .quote => .ok { assembly with pending := .quotation token.span :: assembly.pending }
  | .atom value => .ok (deliver (.atom value token.span) assembly.forms assembly.pending)
  | .closing closer =>
    match assembly.pending with
    | .collection opener opening items :: pending =>
      if opener.closer = closer then do
        let form ← close opener items.reverse { opening with stop := token.span.stop }
        return deliver form assembly.forms pending
      else .error (.unexpectedCloser closer (placeOf token.span))
    | _ => .error (.unexpectedCloser closer (placeOf token.span))

/-- The forms of a text that ends here. -/
def finish (assembly : Assembly) (stop : Place) : Except ReadError (List Form) :=
  match assembly.pending with
  | [] => .ok assembly.forms.reverse
  | .collection opener _ _ :: _ => .error (.missingCloser opener.closer)
  | .quotation _ :: _ => .error (.unexpectedEnd stop)

end Assembly

/-- Assembles the tokens of a text. -/
def assemble (scanned : Scanned) : Except ReadError (List Form) := do
  let assembly ← scanned.tokens.foldlM Assembly.step .empty
  let stop ← scanned.ending
  assembly.finish stop

def readAll (text : String) : Except ReadError (List Form) := assemble (scan text.toList)

/-- The only form of a text. -/
def single : List Form → Except ReadError Form
  | [form] => return form
  | forms => throw (.formCount forms.length)

/-- Reads a text that holds exactly one form. -/
def readOne (text : String) : Except ReadError Form := readAll text >>= single

end LispScope.Source
