/-!
# Lookup tables

A finite map kept as its entries. The last write for a key wins: inserting drops the key's
earlier entry, so no key occurs twice. Main statement: `get?_insert`.
-/
namespace LispScope

/-- A finite map from keys to values; the newest entry stands first. -/
structure Table (κ : Type u) (ν : Type v) where
  /-- The entries, newest first. -/
  entries : List (κ × ν)

namespace Table

variable {κ : Type u} {ν : Type v}

def empty : Table κ ν := ⟨[]⟩

instance : Inhabited (Table κ ν) := ⟨empty⟩

variable [DecidableEq κ]

def get? (table : Table κ ν) (key : κ) : Option ν :=
  (table.entries.find? fun entry => entry.1 = key).map Prod.snd

def contains (table : Table κ ν) (key : κ) : Bool := (table.get? key).isSome

/-- Stores a value under a key, in place of what the key had before. -/
def insert (table : Table κ ν) (key : κ) (value : ν) : Table κ ν :=
  ⟨(key, value) :: table.entries.filter fun entry => entry.1 ≠ key⟩

@[simp] theorem get?_empty (key : κ) : (empty : Table κ ν).get? key = none := rfl

theorem get?_insert_self (table : Table κ ν) (key : κ) (value : ν) :
    (table.insert key value).get? key = some value := by
  simp [get?, insert]

theorem get?_insert_of_ne (table : Table κ ν) {key other : κ} (value : ν) (differs : other ≠ key) :
    (table.insert key value).get? other = table.get? other := by
  have apart : ¬ key = other := fun same => differs same.symm
  simp only [get?, insert, List.find?_cons, apart, decide_false, List.find?_filter]
  congr 2
  funext entry
  by_cases same : entry.1 = other <;> simp [same, differs]

/-- Reading after a write sees the write under its own key and the old value elsewhere. -/
theorem get?_insert (table : Table κ ν) (key other : κ) (value : ν) :
    (table.insert key value).get? other = if other = key then some value else table.get? other := by
  split
  next same => rw [same, get?_insert_self]
  next differs => exact get?_insert_of_ne table value differs

end Table

end LispScope
