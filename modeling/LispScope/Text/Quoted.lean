/-!
# Quoted text

How a text is written between double quotes: printable ASCII characters stand for themselves,
except for the two quotation marks and the backslash, which take a backslash; tab, line feed and
carriage return have letters of their own; every other character is written by its code point.
-/
namespace LispScope.Text

/-- Hexadecimal digits of a number, in lower case and without padding. -/
def hexDigits (n : Nat) : String := String.ofList (Nat.toDigits 16 n)

/-- What holds of the sixteen digits holds of all digits of a number. -/
theorem all_hexDigits {p : Char → Bool} (digit : ∀ d < 16, p d.digitChar = true) (n : Nat) :
    (hexDigits n).toList.all p = true := by
  rw [hexDigits, String.toList_ofList]
  induction n using Nat.strongRecOn with
  | ind n ih =>
    rw [Nat.toDigits_eq_if (by decide)]
    split
    next small => simpa using digit n small
    next large =>
      rw [List.all_append, ih (n / 16) (by omega)]
      simpa using digit (n % 16) (by omega)

/-- How one character is written inside quotes. -/
def escapeChar (c : Char) : String :=
  match c with
  | '\t' => "\\t"
  | '\r' => "\\r"
  | '\n' => "\\n"
  | '\x27' => "\\'"
  | '\x22' => "\\\""
  | '\\' => "\\\\"
  | _ =>
    if 0x20 ≤ c.toNat && c.toNat ≤ 0x7e then c.toString
    else "\\u\x7b" ++ hexDigits c.toNat ++ "\x7d"

/-- A text as it is written inside quotes. -/
def escape (text : String) : String := String.join (text.toList.map escapeChar)

def quote (text : String) : String := "\"" ++ escape text ++ "\""

end LispScope.Text
