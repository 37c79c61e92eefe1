import LispScope.Symbol
import LispScope.Number.Text
import LispScope.Text.Quoted

/-!
# Data

Constant data: what a quoted form or a literal stands for. Data are atoms, the three kinds of
sequence, and maps; maps and sets keep their entries as they were written. Each datum has a text,
and `Datum.typeName` is the word for its type in messages.
-/
namespace LispScope

/-- Data without parts. -/
inductive Atom
  | nil
  | bool (value : Bool)
  | int (value : Int64)
  | float (value : Double)
  | char (value : Char)
  | string (value : String)
  | keyword (name : Symbol)
  | symbol (name : Symbol)
deriving DecidableEq, Inhabited, Repr

namespace Atom

/-- The written form. A character follows its backslash as it is. -/
def text : Atom → String
  | nil => "nil"
  | bool value => if value then "true" else "false"
  | int value => toString value.toInt
  | float value => value.text
  | char value => "\\" ++ value.toString
  | string value => Text.quote value
  | keyword name => ":" ++ name.text
  | symbol name => name.text

def typeName : Atom → String
  | nil => "nil"
  | bool _ => "boolean"
  | int _ => "integer"
  | float _ => "float"
  | char _ => "character"
  | string _ => "string"
  | keyword _ => "keyword"
  | symbol _ => "symbol"

end Atom

/-- The kinds of sequence. -/
inductive Shape
  | list
  | vector
  | set
deriving DecidableEq, Inhabited, Repr

namespace Shape

def opening : Shape → String
  | list => "("
  | vector => "["
  | set => "#\x7b"

def closing : Shape → String
  | list => ")"
  | vector => "]"
  | set => "\x7d"

def typeName : Shape → String
  | list => "list"
  | vector => "vector"
  | set => "set"

end Shape

/-- Constant data. -/
inductive Datum
  | atom (value : Atom)
  | seq (shape : Shape) (items : List Datum)
  | map (entries : List (Datum × Datum))
deriving Inhabited

namespace Datum

mutual

/-- The written form: items divided by blanks, map entries by commas. -/
def text : Datum → String
  | atom value => value.text
  | seq shape items => shape.opening ++ " ".intercalate (texts items) ++ shape.closing
  | map entries => "\x7b" ++ ", ".intercalate (entryTexts entries) ++ "\x7d"
termination_by structural datum => datum

def texts : List Datum → List String
  | [] => []
  | item :: items => item.text :: texts items
termination_by structural items => items

/-- The written forms of entries, each a key and a value divided by a blank. -/
def entryTexts : List (Datum × Datum) → List String
  | [] => []
  | (key, value) :: entries => (key.text ++ " " ++ value.text) :: entryTexts entries
termination_by structural entries => entries

end

instance : ToString Datum := ⟨text⟩

theorem texts_eq_map (items : List Datum) : texts items = items.map text := by
  induction items with
  | nil => rfl
  | cons item items ih => rw [texts, ih, List.map_cons]

theorem entryTexts_eq_map (entries : List (Datum × Datum)) :
    entryTexts entries = entries.map fun entry => entry.1.text ++ " " ++ entry.2.text := by
  induction entries with
  | nil => rfl
  | cons entry entries ih =>
    obtain ⟨key, value⟩ := entry
    rw [entryTexts, ih, List.map_cons]

def typeName : Datum → String
  | atom value => value.typeName
  | seq shape _ => shape.typeName
  | map _ => "map"

def isNil : Datum → Bool
  | atom .nil => true
  | _ => false

def isNumber : Datum → Bool
  | atom (.int _) | atom (.float _) => true
  | _ => false

def isSymbol : Datum → Bool
  | atom (.symbol _) => true
  | _ => false

/-- Whether the datum can be walked as a sequence: nil, strings and collections. -/
def isSeqable : Datum → Bool
  | atom .nil | atom (.string _) | seq .. | map _ => true
  | atom _ => false

/-- Whether the datum has a machine representation of its own: numbers, characters and booleans. -/
def hasUnboxedForm : Datum → Bool
  | atom (.int _) | atom (.float _) | atom (.char _) | atom (.bool _) => true
  | _ => false

/-- Whether the datum is built once per function. Nil and booleans are written in place. -/
def needsLifting : Datum → Bool
  | atom .nil | atom (.bool _) => false
  | _ => true

def int? : Datum → Option Int64
  | atom (.int value) => some value
  | _ => none

end Datum

end LispScope
