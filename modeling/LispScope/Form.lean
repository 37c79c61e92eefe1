import LispScope.Datum
import LispScope.Span

/-!
# Forms

A form is a datum in which every node carries the span of source that it was read from. `Form.datum`
forgets the spans; two forms that were read from different places are alike if their data are the
same. Whatever of a form does not depend on its place is defined through its datum.
-/
namespace LispScope

/-- Data with a source span on every node. -/
inductive Form
  | atom (value : Atom) (span : Span)
  | seq (shape : Shape) (items : List Form) (span : Span)
  | map (entries : List (Form × Form)) (span : Span)
deriving Inhabited

namespace Form

@[match_pattern] abbrev symbol (name : Symbol) (span : Span) : Form := .atom (.symbol name) span

@[match_pattern] abbrev list (items : List Form) (span : Span) : Form := .seq .list items span

@[match_pattern] abbrev vector (items : List Form) (span : Span) : Form := .seq .vector items span

@[match_pattern] abbrev set (items : List Form) (span : Span) : Form := .seq .set items span

/-- The span of the whole form. -/
def span : Form → Span
  | atom _ span => span
  | seq _ _ span => span
  | map _ span => span

mutual

/-- The datum without its places. -/
def datum : Form → Datum
  | atom value _ => .atom value
  | seq shape items _ => .seq shape (data items)
  | map entries _ => .map (entryData entries)
termination_by structural form => form

def data : List Form → List Datum
  | [] => []
  | item :: items => item.datum :: data items
termination_by structural items => items

def entryData : List (Form × Form) → List (Datum × Datum)
  | [] => []
  | (key, value) :: entries => (key.datum, value.datum) :: entryData entries
termination_by structural entries => entries

end

theorem data_eq_map (items : List Form) : data items = items.map datum := by
  induction items with
  | nil => rfl
  | cons item items ih => rw [data, ih, List.map_cons]

theorem entryData_eq_map (entries : List (Form × Form)) :
    entryData entries = entries.map fun entry => (entry.1.datum, entry.2.datum) := by
  induction entries with
  | nil => rfl
  | cons entry entries ih =>
    obtain ⟨key, value⟩ := entry
    rw [entryData, ih, List.map_cons]

mutual

/-- The datum, with every keyword exchanged for the one that `intern` hands out. Keywords are
interned in the order in which they are written. -/
def constant {m : Type → Type} [Monad m] (intern : Symbol → m Symbol) : Form → m Datum
  | atom (.keyword name) _ => do return .atom (.keyword (← intern name))
  | atom value _ => return .atom value
  | seq shape items _ => do return .seq shape (← constants intern items)
  | map entries _ => do return .map (← entryConstants intern entries)
termination_by structural form => form

def constants {m : Type → Type} [Monad m] (intern : Symbol → m Symbol) : List Form → m (List Datum)
  | [] => return []
  | item :: items => do return (← item.constant intern) :: (← constants intern items)
termination_by structural items => items

def entryConstants {m : Type → Type} [Monad m] (intern : Symbol → m Symbol) :
    List (Form × Form) → m (List (Datum × Datum))
  | [] => return []
  | (key, value) :: entries => do
    return (← key.constant intern, ← value.constant intern) :: (← entryConstants intern entries)
termination_by structural entries => entries

end

mutual

/-- Whether the form is literal data that stands for itself: atoms other than symbols, the empty
list, and vectors, sets and maps of such data. -/
def isConstant : Form → Bool
  | atom (.symbol _) _ => false
  | atom _ _ => true
  | seq .list items _ => items.isEmpty
  | seq _ items _ => areConstant items
  | map entries _ => entriesAreConstant entries
termination_by structural form => form

/-- Whether all items are literal data. -/
def areConstant : List Form → Bool
  | [] => true
  | item :: items => item.isConstant && areConstant items
termination_by structural items => items

/-- Whether all keys and values are literal data. -/
def entriesAreConstant : List (Form × Form) → Bool
  | [] => true
  | (key, value) :: entries => key.isConstant && value.isConstant && entriesAreConstant entries
termination_by structural entries => entries

end

def text (form : Form) : String := form.datum.text

instance : ToString Form := ⟨text⟩

def typeName : Form → String
  | atom value _ => value.typeName
  | seq shape _ _ => shape.typeName
  | map _ _ => "map"

def symbol? : Form → Option Symbol
  | symbol name _ => some name
  | _ => none

def list? : Form → Option (List Form)
  | list items _ => some items
  | _ => none

def vector? : Form → Option (List Form)
  | vector items _ => some items
  | _ => none

/-- The entries of a map. -/
def map? : Form → Option (List (Form × Form))
  | map entries _ => some entries
  | _ => none

/-- The text that the form is. -/
def string? : Form → Option String
  | atom (.string value) _ => some value
  | _ => none

/-- The integer that the form is. -/
def int? : Form → Option Int64
  | atom (.int value) _ => some value
  | _ => none

/-- The symbol at the head of a list, as in `(head argument)`. -/
def head? (form : Form) : Option Symbol := do
  let head ← (← form.list?).head?
  head.symbol?

/-- Whether the form is the unqualified symbol of the given name. -/
def isNamed (name : String) (form : Form) : Bool := form.symbol? = some (.simple name)

/-- The forms taken two by two; `none` if one is left over. -/
def pairs? : List Form → Option (List (Form × Form))
  | [] => some []
  | [_] => none
  | first :: second :: rest => (pairs? rest).map ((first, second) :: ·)

/-- The symbol of a form that can name a local: an unqualified symbol. -/
def localName? (form : Form) : Option Symbol := form.symbol?.filter fun name => !name.isQualified

end Form

end LispScope
