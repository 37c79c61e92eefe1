import LispScope.Text.Quoted

/-!
# Identifiers for generated code

A Lisp name may hold any character. Its identifier keeps letters, digits and underscores of the
ASCII range and spells every other character out between underscores, so that it is made of letters,
digits and underscores alone and does not begin with a digit. A name supply appends a number that it
never hands out twice.
-/
namespace LispScope

namespace Identifier

/-- Whether a character stands for itself in an identifier. -/
def isPlain (c : Char) : Bool := c.isAlphanum || c = '_'

/-- How a character is spelled in an identifier. -/
def spell (c : Char) : String :=
  if isPlain c then c.toString
  else match c with
    | '-' => "_"
    | '.' => "_DOT_"
    | '/' => "_SLASH_"
    | '+' => "_PLUS_"
    | '*' => "_STAR_"
    | '?' => "_QMARK_"
    | '!' => "_BANG_"
    | '<' => "_LT_"
    | '>' => "_GT_"
    | '=' => "_EQ_"
    | '&' => "_AMP_"
    | '%' => "_PCT_"
    | '\x27' => "_SINGLEQUOTE_"
    | ':' => "_COLON_"
    | '$' => "_DOLLAR_"
    | _ => "_U" ++ (Text.hexDigits c.toNat).map Char.toUpper ++ "_"

/-- The identifier of a name. An underscore goes before a leading digit. -/
def ofName (name : String) : String :=
  let spelled := String.join (name.toList.map spell)
  if spelled.toList.head?.any Char.isDigit then "_" ++ spelled else spelled

end Identifier

/-- A source of identifiers that are never repeated. -/
structure NameSupply where
  /-- How many identifiers were handed out. -/
  issued : Nat
deriving DecidableEq, Inhabited, Repr

namespace NameSupply

/-- A supply that has handed out nothing. -/
def initial : NameSupply := ⟨0⟩

/-- The identifier of a name, made unique by a fresh number. -/
def fresh (supply : NameSupply) (name : String) : String × NameSupply :=
  let number := supply.issued + 1
  (Identifier.ofName name ++ "_" ++ toString number, ⟨number⟩)

/-- An identifier for a constant, which has no name of its own. -/
def freshConstant (supply : NameSupply) : String × NameSupply := supply.fresh "const"

end NameSupply

end LispScope
