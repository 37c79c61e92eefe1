import LispScope.Datum
import LispScope.Source.ReadError
import LispScope.Text.Blank

/-!
# Tokens

The pieces that a text falls into: brackets, quote marks and atoms, each with its span. This module
says which characters end a word and which atom or character a word stands for.
-/
namespace LispScope.Source

/-- What an opening bracket begins. -/
inductive Opener
  | seq (shape : Shape)
  | map
deriving DecidableEq, Repr

/-- The bracket that closes what was opened. -/
def Opener.closer : Opener → Char
  | seq .list => ')'
  | seq .vector => ']'
  | seq .set | map => '}'

/-- A token without its place. -/
inductive Lexeme
  | opening (opener : Opener)
  | closing (closer : Char)
  | quote
  | atom (value : Atom)
deriving DecidableEq, Repr

/-- A token with the span that it covers. -/
structure Token where
  lexeme : Lexeme
  span : Span
deriving DecidableEq, Repr

/-- Whether a character ends the word before it. -/
def isDelimiter (c : Char) : Bool :=
  Text.isBlank c || ['(', ')', '[', ']', '{', '}', '\x22', ',', ';'].contains c

/-- Whether a word with this first character may be a number. -/
def beginsNumeral (c : Char) : Bool := c.isDigit || c = '-' || c = '+'

/-- The atom that a word stands for: a keyword if it begins with a colon, one of the three
constants, a number, or else a symbol. -/
def atomOfWord : List Char → Except ReadError Atom
  | [] => .error .emptyToken
  | ':' :: name => .ok (.keyword (.parse (String.ofList name)))
  | first :: rest =>
    let word := first :: rest
    let text := String.ofList word
    if text = "nil" then .ok .nil
    else if text = "true" then .ok (.bool true)
    else if text = "false" then .ok (.bool false)
    else match Numeral.integer? word with
      | some value => .ok (.int value)
      | none =>
        match if beginsNumeral first then Numeral.double? word else none with
        | some value => .ok (.float value)
        | none => .ok (.symbol (.parse text))

/-- The character that the word after a backslash stands for: one of three names, or itself. -/
def charOfWord (word : List Char) : Except ReadError Char :=
  let name := String.ofList word
  if name = "newline" then .ok '\n'
  else if name = "space" then .ok ' '
  else if name = "tab" then .ok '\t'
  else match word with
    | [c] => .ok c
    | _ => .error (.unknownCharacter name)

end LispScope.Source
