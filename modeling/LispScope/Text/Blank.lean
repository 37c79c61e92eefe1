/-!
# Blank characters

The characters that separate tokens without being part of one: the twenty-five characters with the
Unicode property White_Space.
-/
namespace LispScope.Text

/-- The ranges of code points, both ends included, with the property White_Space. -/
def blankRanges : List (Nat × Nat) :=
  [(0x09, 0x0d), (0x20, 0x20), (0x85, 0x85), (0xa0, 0xa0), (0x1680, 0x1680), (0x2000, 0x200a),
   (0x2028, 0x2029), (0x202f, 0x202f), (0x205f, 0x205f), (0x3000, 0x3000)]

/-- Whether a character is white space. -/
def isBlank (c : Char) : Bool :=
  blankRanges.any fun (first, last) => first ≤ c.toNat && c.toNat ≤ last

/-- The table lists twenty-five characters. -/
example : (blankRanges.map fun (first, last) => last + 1 - first).sum = 25 := rfl

end LispScope.Text
