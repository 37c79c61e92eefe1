import LispScope.Source.Place

/-!
# What can be wrong with a text

The reasons for which a text cannot be read as forms, and their wording.
-/
namespace LispScope.Source

/-- A reason for which a text cannot be read. -/
inductive ReadError
  /-- The text ends where a form is needed. -/
  | unexpectedEnd (place : Place)
  /-- A hash sign that does not open a set. -/
  | unsupportedDispatch (place : Place)
  /-- A closing bracket that closes nothing. -/
  | unexpectedCloser (closer : Char) (place : Place)
  /-- The text ends inside a collection. -/
  | missingCloser (closer : Char)
  /-- The text ends inside a string. -/
  | unterminatedString
  /-- The text ends after the backslash of a character. -/
  | badCharacter
  /-- A character name that is not known. -/
  | unknownCharacter (name : String)
  /-- A map with a key that has no value. -/
  | oddMap
  /-- A word without characters. -/
  | emptyToken
  /-- One form was wanted and another number was found. -/
  | formCount (found : Nat)
deriving DecidableEq, Repr

/-- The wording of a reason. -/
def ReadError.message : ReadError → String
  | unexpectedEnd place => "unexpected end of input at " ++ place.text
  | unsupportedDispatch place => "unsupported dispatch at " ++ place.text
  | unexpectedCloser closer place => "unexpected '" ++ closer.toString ++ "' at " ++ place.text
  | missingCloser closer => "missing '" ++ closer.toString ++ "'"
  | unterminatedString => "unterminated string"
  | badCharacter => "bad character"
  | unknownCharacter name => "unknown character \\" ++ name
  | oddMap => "map literal requires an even number of forms"
  | emptyToken => "empty token"
  | formCount found => "expected one form, got " ++ toString found

end LispScope.Source
