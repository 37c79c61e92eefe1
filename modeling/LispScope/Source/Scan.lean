import LispScope.Source.Token

/-!
# Scanning a text into tokens

The scanner reads a text one character at a time, as a fold whose state tells what the last
characters were part of. A word ends at the first delimiter, which is then looked at again as the
beginning of something new. The first thing that cannot be scanned stops the scanner: the tokens
before it stand, and the reason becomes the ending of the result.
-/
namespace LispScope.Source

/-- What the scanner is in the middle of. A part that was read already is kept from its end. -/
inductive Mode
  /-- Between two tokens. -/
  | between
  /-- In a comment, which ends with its line. -/
  | comment
  /-- In a word that stands for an atom. -/
  | word (start : Place) (reversed : List Char)
  /-- In a string. -/
  | string (start : Place) (reversed : List Char)
  /-- After a backslash in a string. -/
  | escape (start : Place) (reversed : List Char)
  /-- After the backslash that begins a character. -/
  | backslash (start : Place)
  /-- In the word after such a backslash. -/
  | charWord (start : Place) (reversed : List Char)
  /-- After a hash sign. -/
  | hash (start : Place)
  /-- Stopped at something that cannot be scanned. -/
  | stopped (error : ReadError)
deriving DecidableEq, Repr

/-- The state of the scanner before a character. -/
structure Scanner where
  /-- What the scanner is in the middle of. -/
  mode : Mode
  /-- The place of the next character. -/
  place : Place
  /-- The tokens so far, newest first. -/
  tokens : List Token
deriving DecidableEq, Repr

namespace Scanner

/-- The scanner at the beginning of a text. -/
def initial : Scanner := ⟨.between, .origin, []⟩

/-- Adds a token that begins at `start` and ends before the offset `stop`. -/
def emit (scanner : Scanner) (lexeme : Lexeme) (start : Place) (stop : Nat) : Scanner :=
  { scanner with tokens := ⟨lexeme, start.spanTo stop⟩ :: scanner.tokens }

/-- Puts the scanner in the given mode. -/
def enter (scanner : Scanner) (mode : Mode) : Scanner := { scanner with mode }

/-- Ends the word that is being read. -/
def endWord (scanner : Scanner) : Scanner :=
  match scanner.mode with
  | .word start reversed =>
    match atomOfWord reversed.reverse with
    | .ok value => (scanner.emit (.atom value) start scanner.place.offset).enter .between
    | .error error => scanner.enter (.stopped error)
  | .charWord start reversed =>
    match charOfWord reversed.reverse with
    | .ok value => (scanner.emit (.atom (.char value)) start scanner.place.offset).enter .between
    | .error error => scanner.enter (.stopped error)
  | _ => scanner

/-- Looks at a character between two tokens; the scanner's place is still that of the character. -/
def beginWith (scanner : Scanner) (c : Char) : Scanner :=
  let start := scanner.place
  let stop := (start.after c).offset
  if Text.isBlank c || c = ',' then scanner.enter .between
  else match c with
    | ';' => scanner.enter .comment
    | '(' => (scanner.emit (.opening (.seq .list)) start stop).enter .between
    | '[' => (scanner.emit (.opening (.seq .vector)) start stop).enter .between
    | '{' => (scanner.emit (.opening .map) start stop).enter .between
    | ')' | ']' | '}' => (scanner.emit (.closing c) start stop).enter .between
    | '\x27' => (scanner.emit .quote start stop).enter .between
    | '\x22' => scanner.enter (.string start [])
    | '\\' => scanner.enter (.backslash start)
    | '#' => scanner.enter (.hash start)
    | _ => scanner.enter (.word start [c])

/-- What a character after a backslash means inside a string. -/
def unescape (c : Char) : Char :=
  match c with
  | 'n' => '\n'
  | 't' => '\t'
  | _ => c

/-- What becomes of the scanner by the next character, its place left aside. -/
def react (scanner : Scanner) (c : Char) : Scanner :=
  let stop := (scanner.place.after c).offset
  match scanner.mode with
  | .between => scanner.beginWith c
  | .comment => if c = '\n' then scanner.enter .between else scanner
  | .word start reversed =>
    if !isDelimiter c then scanner.enter (.word start (c :: reversed))
    else
      let ended := scanner.endWord
      if ended.mode = .between then ended.beginWith c else ended
  | .string start reversed =>
    match c with
    | '\x22' =>
      let value := Atom.string (String.ofList reversed.reverse)
      (scanner.emit (.atom value) start stop).enter .between
    | '\\' => scanner.enter (.escape start reversed)
    | _ => scanner.enter (.string start (c :: reversed))
  | .escape start reversed => scanner.enter (.string start (unescape c :: reversed))
  | .backslash start =>
    if isDelimiter c then (scanner.emit (.atom (.char c)) start stop).enter .between
    else scanner.enter (.charWord start [c])
  | .charWord start reversed =>
    if !isDelimiter c then scanner.enter (.charWord start (c :: reversed))
    else
      let ended := scanner.endWord
      if ended.mode = .between then ended.beginWith c else ended
  | .hash start =>
    if c = '{' then (scanner.emit (.opening (.seq .set)) start stop).enter .between
    else scanner.enter (.stopped (.unsupportedDispatch start))
  | .stopped _ => scanner

/-- Reads one character. -/
def step (scanner : Scanner) (c : Char) : Scanner :=
  { scanner.react c with place := scanner.place.after c }

end Scanner

/-- The tokens of a text and how it ends: at a place, or at something that cannot be scanned. -/
structure Scanned where
  /-- The tokens, in order. -/
  tokens : List Token
  /-- The end of the text, or what stopped the scanner. -/
  ending : Except ReadError Place

/-- What the scanner has found when the text ends. -/
def Scanner.finish (scanner : Scanner) : Scanned :=
  let ended := scanner.endWord
  let ending := match ended.mode with
    | .string .. | .escape .. => .error .unterminatedString
    | .backslash _ => .error .badCharacter
    | .hash start => .error (.unsupportedDispatch start)
    | .stopped error => .error error
    | _ => .ok ended.place
  ⟨ended.tokens.reverse, ending⟩

def scan (text : List Char) : Scanned := (text.foldl Scanner.step .initial).finish

end LispScope.Source
