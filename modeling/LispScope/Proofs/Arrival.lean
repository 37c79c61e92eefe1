import LispScope.Registry
import LispScope.Proofs.Digest
import LispScope.Proofs.Shuffling

/-!
# First arrivals

Main statement: `Datum.same_deduplicates`. Equality of data is an equivalence that overlooks exactly the
order and the number of entries of sets and maps, and a registry over such keys answers every call with
what the first call under an equal key has offered.

A registry is asked in a run of calls, each with a key and an offer. What it knows after some calls is
said by the calls alone (`Records`), one step at a time. `IndexedRegistry` finds the place of a key
through a hash table that is kept along with the entries; it never looks beyond its entries, answers
as the registry does, and its table leads from every key to the only entry with an equal key.
-/
namespace LispScope

namespace Registry

variable {κ : Type u} {ν : Type v} [BEq κ] {registry : Registry κ ν} {earlier : List (κ × ν)}

/-- The answers to calls that are made one after the other, and the registry that they leave. A call is a
key with the value that is offered for it. -/
def run (registry : Registry κ ν) : List (κ × ν) → List (ν × Bool) × Registry κ ν
  | [] => ([], registry)
  | call :: calls =>
    let (value, isNew, next) := registry.getOrInsert call.1 call.2
    let (answers, last) := next.run calls
    ((value, isNew) :: answers, last)

/-- The answer to a call after earlier ones: the offer of the first of them with an equal key, or the
offer of the call itself if there is none. The flag tells which. -/
def firstAnswer (earlier : List (κ × ν)) (call : κ × ν) : ν × Bool :=
  match earlier.find? fun other => other.1 == call.1 with
  | some first => (first.2, false)
  | none => (call.2, true)

/-- Calls after earlier ones are answered by first arrivals, and those that are first arrivals themselves
are kept in their order. -/
structure Answered (earlier calls : List (κ × ν)) (answers : List (ν × Bool))
    (kept : List (κ × ν)) : Prop where
  each : ∀ k : Nat, answers[k]? = calls[k]?.map (firstAnswer (earlier ++ calls.take k))
  kept : kept = ((calls.zip answers).filter fun answered => answered.2.2).map Prod.fst

/-! ### What a registry knows after some calls -/

/-- The registry holds under each key what the first of the calls with an equal key has offered. -/
def Records (registry : Registry κ ν) (earlier : List (κ × ν)) : Prop :=
  ∀ key, registry.get? key = (earlier.find? fun call => call.1 == key).map Prod.snd

theorem records_empty : Records (empty : Registry κ ν) [] := fun _ => rfl

variable [EquivBEq κ]

/-- A call whose key has arrived before is the first one for no key. -/
theorem find?_concat_of_known {call first : κ × ν}
    (known : earlier.find? (fun other => other.1 == call.1) = some first) (key : κ) :
    (earlier ++ [call]).find? (fun other => other.1 == key) =
      earlier.find? fun other => other.1 == key := by
  rw [List.find?_append]
  cases found : earlier.find? fun other => other.1 == key with
  | some other => rfl
  | none =>
    have unequal : (call.1 == key) = false := by
      by_contra same
      have alike : (first.1 == call.1) = true := by simpa using List.find?_some known
      have late := List.find?_eq_none.mp found first (List.mem_of_find?_eq_some known)
      exact late (BEq.trans alike (by simpa using same))
    simp [unequal]

/-- One call is answered by first arrival, and recorded. -/
theorem Records.getOrInsert (records : registry.Records earlier) (call : κ × ν) :
    ∃ next, registry.getOrInsert call.1 call.2 =
        ((firstAnswer earlier call).1, (firstAnswer earlier call).2, next) ∧
      next.entries = registry.entries ++ (if (firstAnswer earlier call).2 then [call] else []) ∧
      next.Records (earlier ++ [call]) := by
  have held := records call.1
  cases known : earlier.find? fun other => other.1 == call.1 with
  | some first =>
    -- Neither the registry changes nor the first arrival under any key.
    rw [known] at held
    refine ⟨registry, ?_, by simp [firstAnswer, known], fun key => ?_⟩
    · rw [getOrInsert_of_some held, firstAnswer, known]
    · rw [find?_concat_of_known known, records key]
  | none =>
    rw [known] at held
    refine ⟨registry.push call.1 call.2, ?_, by simp [firstAnswer, known, push], fun key => ?_⟩
    · rw [getOrInsert_of_none held, firstAnswer, known]
    · rw [get?_push, records key, List.find?_append]
      cases earlier.find? fun other => other.1 == key with
      | some other => rfl
      | none => by_cases same : (call.1 == key) = true <;> simp [same]

/-- A run of calls is answered by first arrivals. -/
theorem Records.run (records : registry.Records earlier) (calls : List (κ × ν)) :
    ∃ kept, (registry.run calls).2.entries = registry.entries ++ kept ∧
      Answered earlier calls (registry.run calls).1 kept := by
  induction calls generalizing registry earlier with
  | nil => exact ⟨[], by simp [Registry.run], by simp [Registry.run], rfl⟩
  | cons call calls ih =>
    obtain ⟨next, answer, entries, records⟩ := records.getOrInsert call
    -- For the calls after it, this call is one of the earlier ones.
    obtain ⟨kept, added, answered⟩ := ih records
    have run : registry.run (call :: calls) =
        (firstAnswer earlier call :: (next.run calls).1, (next.run calls).2) := by
      rw [Registry.run, answer]
    rw [run]
    refine ⟨(if (firstAnswer earlier call).2 then [call] else []) ++ kept, ?_, fun k => ?_, ?_⟩
    · rw [added, entries, List.append_assoc]
    · cases k with
      | zero => simp
      | succ k => simpa using answered.each k
    · rw [answered.kept, List.zip_cons_cons, List.filter_cons]
      cases (firstAnswer earlier call).2 <;> rfl

end Registry

/-! ### Registries with an index -/

/-- A registry with an index, which tells the places of the keys among the entries. -/
structure IndexedRegistry (κ : Type u) (ν : Type v) [BEq κ] [Hashable κ] extends Registry κ ν where
  index : Std.HashMap κ Nat

namespace IndexedRegistry

variable {κ : Type u} {ν : Type v} [BEq κ] [Hashable κ] {indexed : IndexedRegistry κ ν}

def empty : IndexedRegistry κ ν := ⟨.empty, ∅⟩

/-- The value under an equal key, looked up at the place that the index tells; an offer under a new key
goes to the end, and the index is told so. There is no answer if the place is beyond the entries. -/
def getOrInsert (indexed : IndexedRegistry κ ν) (key : κ) (offered : ν) :
    Option (ν × Bool × IndexedRegistry κ ν) :=
  match indexed.index[key]? with
  | some place => indexed.entries[place]?.map fun entry => (entry.2, false, indexed)
  | none =>
    some (offered, true, ⟨indexed.toRegistry.push key offered, indexed.index.insert key indexed.size⟩)

def run (indexed : IndexedRegistry κ ν) :
    List (κ × ν) → Option (List (ν × Bool) × IndexedRegistry κ ν)
  | [] => some ([], indexed)
  | call :: calls => do
    let (value, isNew, next) ← indexed.getOrInsert call.1 call.2
    let (answers, last) ← next.run calls
    return ((value, isNew) :: answers, last)

/-- The index leads from a key to the only entry with an equal key, and to nothing else. -/
structure Consistent (indexed : IndexedRegistry κ ν) : Prop where
  place_iff : ∀ key place, indexed.index[key]? = some place ↔
    ∃ entry : κ × ν, indexed.entries[place]? = some entry ∧ (entry.1 == key) = true
  size_eq : indexed.index.size = indexed.size

theorem consistent_empty : (empty : IndexedRegistry κ ν).Consistent where
  place_iff key place := by simp [empty, Registry.empty]
  size_eq := by simp [empty, Registry.empty, Registry.size]

theorem exists_concat_iff {entries : List α} {last : α} {place : Nat} {P : α → Prop} :
    (∃ entry, (entries ++ [last])[place]? = some entry ∧ P entry) ↔
      (∃ entry, entries[place]? = some entry ∧ P entry) ∨ place = entries.length ∧ P last := by
  rcases Nat.lt_trichotomy place entries.length with inside | rfl | beyond
  · simp [List.getElem?_append_left inside, Nat.ne_of_lt inside]
  · simp
  · have outside : (entries ++ [last])[place]? = none := by
      apply List.getElem?_eq_none
      rw [List.length_append, List.length_singleton]
      omega
    simp [outside, List.getElem?_eq_none beyond.le, Nat.ne_of_gt beyond]

/-- What the registry finds under a key stands at the place that the index tells. -/
theorem Consistent.get? (consistent : indexed.Consistent) (key : κ) :
    indexed.toRegistry.get? key =
      indexed.index[key]?.bind fun place => indexed.entries[place]?.map Prod.snd := by
  rw [Registry.get?]
  cases found : indexed.entries.find? fun entry => entry.1 == key with
  | some entry =>
    obtain ⟨place, here⟩ := List.getElem?_of_mem (List.mem_of_find?_eq_some found)
    have same : (entry.1 == key) = true := by simpa using List.find?_some found
    have told := (consistent.place_iff key place).mpr ⟨entry, here, same⟩
    simp [told, here]
  | none =>
    cases told : indexed.index[key]? with
    | none => rfl
    | some place =>
      obtain ⟨entry, here, same⟩ := (consistent.place_iff key place).mp told
      exact absurd same (List.find?_eq_none.mp found entry (List.mem_of_getElem? here))

variable [EquivBEq κ] [LawfulHashable κ]

/-- A new key at the end of the entries gets the place behind them. -/
theorem Consistent.push (consistent : indexed.Consistent) {key : κ} (absent : indexed.index[key]? = none)
    (offered : ν) :
    Consistent ⟨indexed.toRegistry.push key offered, indexed.index.insert key indexed.size⟩ where
  place_iff other place := by
    rw [Registry.push, exists_concat_iff, ← consistent.place_iff, Std.HashMap.getElem?_insert]
    by_cases same : (key == other) = true
    · -- An equal key is as new to the index as the key itself.
      have unknown : indexed.index[other]? = none := by
        rw [← Std.HashMap.getElem?_congr same, absent]
      simp [same, unknown, Registry.size, eq_comm]
    · simp [same]
  size_eq := by
    have fresh : key ∉ indexed.index := by
      rw [← Std.HashMap.isSome_getElem?_iff_mem, absent]
      exact Bool.false_ne_true
    rw [Std.HashMap.size_insert, if_neg fresh, consistent.size_eq]
    simp [Registry.size, Registry.push]

/-- An indexed registry answers a call as the registry does, and stays consistent. -/
theorem Consistent.getOrInsert (consistent : indexed.Consistent) (key : κ) (offered : ν) :
    ∃ next, indexed.getOrInsert key offered =
        some ((indexed.toRegistry.getOrInsert key offered).1,
          (indexed.toRegistry.getOrInsert key offered).2.1, next) ∧
      next.toRegistry = (indexed.toRegistry.getOrInsert key offered).2.2 ∧ next.Consistent := by
  have held := consistent.get? key
  cases told : indexed.index[key]? with
  | some place =>
    obtain ⟨entry, here, -⟩ := (consistent.place_iff key place).mp told
    rw [told, Option.bind_some, here, Option.map_some] at held
    rw [Registry.getOrInsert_of_some held]
    exact ⟨indexed, by simp [IndexedRegistry.getOrInsert, told, here], rfl, consistent⟩
  | none =>
    rw [told, Option.bind_none] at held
    rw [Registry.getOrInsert_of_none held]
    exact ⟨_, by simp only [IndexedRegistry.getOrInsert, told], rfl, consistent.push told offered⟩

/-- An indexed registry never runs out of its entries, and answers a run as the registry does. -/
theorem Consistent.run (consistent : indexed.Consistent) (calls : List (κ × ν)) :
    ∃ last, indexed.run calls = some ((indexed.toRegistry.run calls).1, last) ∧
      last.toRegistry = (indexed.toRegistry.run calls).2 ∧ last.Consistent := by
  induction calls generalizing indexed with
  | nil => exact ⟨indexed, rfl, rfl, consistent⟩
  | cons call calls ih =>
    obtain ⟨next, answer, entries, consistent⟩ := consistent.getOrInsert call.1 call.2
    obtain ⟨last, answers, entries', consistent⟩ := ih consistent
    rw [entries] at answers entries'
    refine ⟨last, ?_, entries', consistent⟩
    simp only [IndexedRegistry.run, answer, answers, Option.bind_eq_bind, Option.bind_some]
    rfl

end IndexedRegistry

namespace Datum

/-- Floats are equal if they have the same bits. -/
theorem same_float_iff {left right : Double} :
    (Datum.atom (.float left)).same (.atom (.float right)) = true ↔ left.bits = right.bits := by
  cases left
  cases right
  simp [Datum.same]

/-- Sameness is an equivalence of data. It compares floats by their bits, sequences in order, and sets and
maps up to the order and the repetition of their items, at any depth. A registry of data answers each
call with what came with the first key that is the same, and a registry that finds its keys by their
hash gives the same answers, whatever the hash. -/
theorem same_deduplicates {ν : Type u} :
    Equivalence (fun left right : Datum => left.same right = true) ∧
    (∀ left right : Double,
      (Datum.atom (.float left)).same (.atom (.float right)) = true ↔ left.bits = right.bits) ∧
    (∀ left right : Datum, left.same right = true ↔ Shuffled left right) ∧
    (∀ shape ≠ Shape.set, ∀ shape' left right,
      (Datum.seq shape left).same (.seq shape' right) = true ↔
        shape = shape' ∧ List.Forall₂ (fun item other => item.same other = true) left right) ∧
    ∀ calls : List (Datum × ν), ∃ answers registry,
      Registry.run .empty calls = (answers, registry) ∧
      Registry.Answered [] calls answers registry.entries ∧
      ∀ hash : Hasher,
        letI := hashable hash
        ∃ indexed, IndexedRegistry.run .empty calls = some (answers, indexed) ∧
          indexed.toRegistry = registry ∧ indexed.Consistent := by
  refine ⟨same_equivalence, fun _ _ => same_float_iff, fun _ _ => same_iff_shuffled,
    fun _ kind _ _ _ => same_ordered_iff kind, fun calls => ⟨_, _, rfl, ?_, fun hash => ?_⟩⟩
  · obtain ⟨kept, entries, answered⟩ := Registry.records_empty.run calls
    rw [entries]
    exact answered
  · let := hashable hash
    have := lawfulHashable hash
    exact IndexedRegistry.consistent_empty.run calls

/-- A map with a set in it. -/
def written : Datum :=
  .map [(.atom (.char 'k'), .seq .set [.atom (.int 1), .atom (.int 2)])]

/-- The same map, with the items of the set in another order and one of them twice. -/
def rewritten : Datum :=
  .map [(.atom (.char 'k'), .seq .set [.atom (.int 2), .atom (.int 1), .atom (.int 2)])]

/-- The second map is registered under the first one, a vector in between for itself. -/
theorem written_deduplicates :
    Shuffled written rewritten ∧
      Registry.Answered [] [(written, "a"), (.seq .vector [], "b"), (rewritten, "c")]
        [("a", true), ("b", true), ("a", false)] [(written, "a"), (.seq .vector [], "b")] := by
  obtain ⟨-, -, shuffles, -, answers⟩ := same_deduplicates (ν := String)
  refine ⟨(shuffles written rewritten).mp rfl, ?_⟩
  obtain ⟨_, _, runs, answered, -⟩ :=
    answers [(written, "a"), (.seq .vector [], "b"), (rewritten, "c")]
  obtain ⟨rfl, rfl⟩ := Prod.mk.inj runs
  exact answered

end Datum

end LispScope
