import LispScope.Datum.Equality

/-!
# Digests of data

A hash table needs equal data to have equal digests. A datum is digested by feeding words to a
hasher, which is any function of the words it was fed. A collection whose order does not matter
cannot be fed item by item: it feeds the number of its distinct items and the wrapping sum of their
own digests, where of equal items only the first counts.
-/
namespace LispScope.Datum

/-- What turns the words it was fed into a digest. -/
abbrev Hasher := List UInt64 → UInt64

/-- The words of a text: its bytes and an end mark that is no byte of a text. -/
def textWords (text : String) : List UInt64 :=
  text.toUTF8.toList.map UInt8.toUInt64 ++ [0xff]

def symbolWords (symbol : Symbol) : List UInt64 :=
  (match symbol.ns with
    | some ns => 1 :: textWords ns
    | none => [0]) ++ textWords symbol.name

/-- The words of an atom, the first of which tells its type. -/
def atomWords : Atom → List UInt64
  | .nil => [0]
  | .bool value => [1, if value then 1 else 0]
  | .int value => [2, value.toUInt64]
  | .float value => [3, value.bits]
  | .char value => [4, value.val.toUInt64]
  | .string value => 5 :: textWords value
  | .keyword name => 6 :: symbolWords name
  | .symbol name => 7 :: symbolWords name

/-- The word that tells the kind of a sequence. -/
def shapeWord : Shape → UInt64
  | .list => 8
  | .vector => 9
  | .set => 11

/-- Number and wrapping sum of the digests of the distinct items. `earlier` holds the items that
came before, each item comes with its digest, and `alike` tells which items are equal. -/
def distinctSum {α : Type} (alike : α → α → Bool) (earlier : List α) :
    List (α × UInt64) → UInt64 × UInt64
  | [] => (0, 0)
  | (item, digest) :: items =>
    let (count, sum) := distinctSum alike (item :: earlier) items
    if earlier.any (alike · item) then (count, sum) else (count + 1, digest + sum)

mutual

/-- The words that a datum feeds. -/
def words (hash : Hasher) : Datum → List UInt64
  | atom value => atomWords value
  | seq .set items =>
    let (count, sum) := distinctSum same [] (digests hash items)
    [shapeWord .set, count, sum]
  | seq shape items => shapeWord shape :: UInt64.ofNat items.length :: itemWords hash items
  | map entries =>
    let alike (left right : Datum × Datum) := left.1.same right.1 && left.2.same right.2
    let (count, sum) := distinctSum alike [] (entryDigests hash entries)
    [10, count, sum]
termination_by structural datum => datum

/-- The words of items, one after the other. -/
def itemWords (hash : Hasher) : List Datum → List UInt64
  | [] => []
  | item :: items => item.words hash ++ itemWords hash items
termination_by structural items => items

def digests (hash : Hasher) : List Datum → List (Datum × UInt64)
  | [] => []
  | item :: items => (item, hash (item.words hash)) :: digests hash items
termination_by structural items => items

def entryDigests (hash : Hasher) : List (Datum × Datum) → List ((Datum × Datum) × UInt64)
  | [] => []
  | (key, value) :: entries =>
    ((key, value), hash (key.words hash ++ value.words hash)) :: entryDigests hash entries
termination_by structural entries => entries

end

def digest (hash : Hasher) (datum : Datum) : UInt64 := hash (datum.words hash)

end LispScope.Datum
