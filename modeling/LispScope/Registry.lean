/-!
# Registries

A registry is a lookup table in which the first arrival under a key stays. Entries keep the order
in which their keys first arrived, so what is generated from a registry follows first use. Keys
are compared by their `BEq`, which need not be equality of representations.
-/
namespace LispScope

/-- Entries in order of first arrival of their keys. -/
structure Registry (κ : Type u) (ν : Type v) where
  /-- The entries, oldest first. -/
  entries : List (κ × ν)

namespace Registry

variable {κ : Type u} {ν : Type v}

def empty : Registry κ ν := ⟨[]⟩

instance : Inhabited (Registry κ ν) := ⟨empty⟩

/-- The keys, in order of first arrival. -/
def keys (registry : Registry κ ν) : List κ := registry.entries.map Prod.fst

/-- The values, in order of first arrival of their keys. -/
def values (registry : Registry κ ν) : List ν := registry.entries.map Prod.snd

def size (registry : Registry κ ν) : Nat := registry.entries.length

def isEmpty (registry : Registry κ ν) : Bool := registry.entries.isEmpty

/-- Appends an entry whose key is new. -/
def push (registry : Registry κ ν) (key : κ) (value : ν) : Registry κ ν :=
  ⟨registry.entries ++ [(key, value)]⟩

@[simp] theorem keys_push (registry : Registry κ ν) (key : κ) (value : ν) :
    (registry.push key value).keys = registry.keys ++ [key] := by
  simp [keys, push]

variable [BEq κ]

/-- The value registered under an equal key. -/
def get? (registry : Registry κ ν) (key : κ) : Option ν :=
  (registry.entries.find? fun entry => entry.1 == key).map Prod.snd

/-- Whether an equal key has arrived. -/
def contains (registry : Registry κ ν) (key : κ) : Bool := (registry.get? key).isSome

/-- The value under an equal key if there is one, and otherwise the offered one, now registered. The
flag tells which. -/
def getOrInsert (registry : Registry κ ν) (key : κ) (offered : ν) :
    ν × Bool × Registry κ ν :=
  match registry.get? key with
  | some value => (value, false, registry)
  | none => (offered, true, registry.push key offered)

@[simp] theorem get?_empty (key : κ) : (empty : Registry κ ν).get? key = none := rfl

theorem get?_push (registry : Registry κ ν) (key other : κ) (value : ν) :
    (registry.push key value).get? other =
      (registry.get? other <|> if key == other then some value else none) := by
  simp only [get?, push, List.find?_append, List.find?_singleton]
  cases registry.entries.find? fun entry => entry.1 == other with
  | some entry => simp
  | none => by_cases same : key == other <;> simp [same]

theorem getOrInsert_of_some {registry : Registry κ ν} {key : κ} {value : ν}
    (present : registry.get? key = some value) (offered : ν) :
    registry.getOrInsert key offered = (value, false, registry) := by
  simp [getOrInsert, present]

theorem getOrInsert_of_none {registry : Registry κ ν} {key : κ}
    (absent : registry.get? key = none) (offered : ν) :
    registry.getOrInsert key offered = (offered, true, registry.push key offered) := by
  simp [getOrInsert, absent]

end Registry

end LispScope
