import LispScope.Datum

/-!
# Equality of data

Two data are equal if they are built alike from equal atoms, where floats are compared by bit
pattern. Lists and vectors respect order and number of their items. Sets and maps do not: two of
them are equal if each entry of one has an equal entry in the other.
-/
namespace LispScope.Datum

mutual

/-- Equality of data. -/
def same : Datum → Datum → Bool
  | atom left, atom right => left == right
  | seq .set left, seq .set right => covers left right && right.all (holds left)
  | seq shape left, seq shape' right => shape == shape' && sameItems left right
  | map left, map right => coversEntries left right && right.all (holdsEntry left)
  | _, _ => false
termination_by structural left => left

def sameItems : List Datum → List Datum → Bool
  | [], [] => true
  | left :: lefts, right :: rights => left.same right && sameItems lefts rights
  | _, _ => false
termination_by structural lefts => lefts

/-- Whether each item on the left has an equal one on the right. -/
def covers : List Datum → List Datum → Bool
  | [], _ => true
  | left :: lefts, rights => rights.any left.same && covers lefts rights
termination_by structural lefts => lefts

/-- Whether some item equals the given one. -/
def holds : List Datum → Datum → Bool
  | [], _ => false
  | left :: lefts, right => left.same right || holds lefts right
termination_by structural lefts => lefts

/-- Whether each entry on the left has an equal one on the right. -/
def coversEntries : List (Datum × Datum) → List (Datum × Datum) → Bool
  | [], _ => true
  | (key, value) :: lefts, rights =>
    rights.any (fun right => key.same right.1 && value.same right.2) && coversEntries lefts rights
termination_by structural lefts => lefts

/-- Whether some entry equals the given one. -/
def holdsEntry : List (Datum × Datum) → Datum × Datum → Bool
  | [], _ => false
  | (key, value) :: lefts, right =>
    (key.same right.1 && value.same right.2) || holdsEntry lefts right
termination_by structural lefts => lefts

end

instance : BEq Datum := ⟨same⟩

theorem covers_eq_all (lefts rights : List Datum) :
    covers lefts rights = lefts.all fun left => rights.any left.same := by
  induction lefts with
  | nil => rfl
  | cons left lefts ih => rw [covers, ih, List.all_cons]

theorem holds_eq_any (lefts : List Datum) (right : Datum) :
    holds lefts right = lefts.any fun left => left.same right := by
  induction lefts with
  | nil => rfl
  | cons left lefts ih => rw [holds, ih, List.any_cons]

theorem coversEntries_eq_all (lefts rights : List (Datum × Datum)) :
    coversEntries lefts rights = lefts.all fun left =>
      rights.any fun right => left.1.same right.1 && left.2.same right.2 := by
  induction lefts with
  | nil => rfl
  | cons left lefts ih =>
    obtain ⟨key, value⟩ := left
    rw [coversEntries, ih, List.all_cons]

theorem holdsEntry_eq_any (lefts : List (Datum × Datum)) (right : Datum × Datum) :
    holdsEntry lefts right = lefts.any fun left =>
      left.1.same right.1 && left.2.same right.2 := by
  induction lefts with
  | nil => rfl
  | cons left lefts ih =>
    obtain ⟨key, value⟩ := left
    rw [holdsEntry, ih, List.any_cons]

end LispScope.Datum
