import LispScope.Diagnostic.Fault

/-!
# Interpolated text

Native code may hold forms between `~` followed by an opening brace and the matching closing brace.
Braces inside nest, whatever they are part of. A text is split into pieces of code, which are never
empty, and the texts of the interpolations; a text with an interpolation that is never closed is not
split at all.
-/
namespace LispScope

/-- A piece of native code. -/
inductive Piece
  | code (text : String)
  | interpolation (text : String)
deriving DecidableEq, Inhabited, Repr

namespace Piece

/-- Puts the code that was read, given from its end, before other pieces. -/
def flush (reversed : List Char) (pieces : List Piece) : List Piece :=
  if reversed.isEmpty then pieces else code (String.ofList reversed.reverse) :: pieces

mutual

/-- Splits what follows in code, of which `reversed` was read already. -/
def splitCode (reversed : List Char) : List Char → Option (List Piece)
  | [] => some (flush reversed [])
  | '~' :: '{' :: rest => (splitInner 0 [] rest).map (flush reversed)
  | c :: rest => splitCode (c :: reversed) rest
termination_by structural chars => chars

/-- Splits what follows in an interpolation, of which `reversed` was read already and in which
`depth` braces are open. -/
def splitInner (depth : Nat) (reversed : List Char) : List Char → Option (List Piece)
  | [] => none
  | c :: rest =>
    if c = '{' then splitInner (depth + 1) (c :: reversed) rest
    else if c = '}' then
      match depth with
      | 0 => (splitCode [] rest).map (interpolation (String.ofList reversed.reverse) :: ·)
      | depth + 1 => splitInner depth (c :: reversed) rest
    else splitInner depth (c :: reversed) rest
termination_by structural chars => chars

end

def split? (text : String) : Option (List Piece) := splitCode [] text.toList

/-- The text that a piece was split off from. -/
def text : Piece → String
  | code text => text
  | interpolation text => "~\x7b" ++ text ++ "\x7d"

end Piece

end LispScope
