import LispScope.Datum.Digest
import LispScope.Proofs.Shuffling
import Mathlib.Algebra.BigOperators.Group.Finset.Basic
import Mathlib.Data.UInt

/-!
# Equal data have equal digests

Main statement: `same_digests`. Whatever the hasher, equal data feed it the same words, so that data can
be keys of a hash table. Order and number of the entries of sets and maps play no part, at any depth: a
collection feeds the number of its kinds of equal entries and the sum of their digests, one for each.

The number and the sum that a set or a map feeds are taken over its first representatives, which
differ from those of an equal set or map. Both are sums over kinds of equal items
(`distinctSum_eq_sum`), and collections that match have the same kinds. Hence any other representatives
have the same number and the same sum (`distinctSum_of_represents`).
-/
namespace LispScope.Datum

/-! ### Sums over kinds of items -/

section Kinds

variable {α : Type} {alike : α → α → Bool} {earlier items left right : List α} {item other : α}
  {digest : α → UInt64}

/-- The items that are equal to an item. -/
def kind (alike : α → α → Bool) (item : α) : Set α := { other | alike item other = true }

theorem kind_eq_iff (lawful : Equivalence fun item other => alike item other = true) :
    kind alike item = kind alike other ↔ alike item other = true := by
  constructor
  · intro same
    have own : other ∈ kind alike other := lawful.refl other
    rwa [← same] at own
  · intro same
    ext third
    exact ⟨fun among => lawful.trans (lawful.symm same) among, fun among => lawful.trans same among⟩

open Classical in
/-- The kinds of the items that are not among the kinds of the earlier ones. -/
noncomputable def newKinds (alike : α → α → Bool) (earlier items : List α) : Finset (Set α) :=
  (items.map (kind alike)).toFinset \ (earlier.map (kind alike)).toFinset

theorem mem_newKinds {members : Set α} : members ∈ newKinds alike earlier items ↔
    members ∈ items.map (kind alike) ∧ members ∉ earlier.map (kind alike) := by
  simp only [newKinds, Finset.mem_sdiff, List.mem_toFinset]

theorem distinctSum_cons (item : α) (digest : UInt64) (others : List (α × UInt64)) :
    distinctSum alike earlier ((item, digest) :: others) =
      if earlier.any (alike · item) then distinctSum alike (item :: earlier) others
      else (1, digest) + distinctSum alike (item :: earlier) others := by
  rw [distinctSum]
  by_cases known : earlier.any (alike · item) = true
  · simp only [known, if_true]
  · simp only [known]
    exact Prod.ext (add_comm ..) rfl

/-- A sum over first representatives is a sum over kinds, when all items of a kind have the same
digest. -/
theorem distinctSum_eq_sum (lawful : Equivalence fun item other => alike item other = true)
    {value : Set α → UInt64} (each : ∀ item ∈ items, digest item = value (kind alike item)) :
    distinctSum alike earlier (items.map fun item => (item, digest item)) =
      ∑ members ∈ newKinds alike earlier items, ((1 : UInt64), value members) := by
  classical
  induction items generalizing earlier with
  | nil => simp [distinctSum, newKinds]
  | cons item items ih =>
    have rest : distinctSum alike (item :: earlier) _ = _ := ih fun other member =>
      each other (List.mem_cons_of_mem _ member)
    have known : earlier.any (alike · item) = true ↔ kind alike item ∈ earlier.map (kind alike) := by
      simp only [List.any_eq_true, List.mem_map, kind_eq_iff lawful]
    rw [List.map_cons, distinctSum_cons, rest]
    split
    next seen =>
      -- The kind of the item has been counted, so that the item adds nothing.
      have same : newKinds alike (item :: earlier) items = newKinds alike earlier (item :: items) := by
        ext members
        have old := known.mp seen
        simp only [mem_newKinds, List.map_cons, List.mem_cons]
        grind
      rw [same]
    next unseen =>
      have fresh : newKinds alike earlier (item :: items) =
          insert (kind alike item) (newKinds alike (item :: earlier) items) := by
        ext members
        have new := mt known.mpr unseen
        simp only [mem_newKinds, Finset.mem_insert, List.map_cons, List.mem_cons]
        grind
      have apart : kind alike item ∉ newKinds alike (item :: earlier) items := by
        simp [mem_newKinds]
      rw [fresh, Finset.sum_insert apart, each item (List.mem_cons_self ..)]

/-- Each kind has a digest, when all items of a kind have the same one. -/
theorem exists_kindDigest (lawful : Equivalence fun item other => alike item other = true)
    (each : ∀ item ∈ left, ∀ other, alike item other = true → digest item = digest other) :
    ∃ value : Set α → UInt64, ∀ item ∈ left, ∀ other, alike item other = true →
      digest other = value (kind alike other) := by
  classical
  refine ⟨fun members => if known : ∃ item ∈ left, kind alike item = members
    then digest known.choose else 0, fun item member other same => ?_⟩
  have known : ∃ item ∈ left, kind alike item = kind alike other :=
    ⟨item, member, (kind_eq_iff lawful).mpr same⟩
  obtain ⟨among, chosen⟩ := known.choose_spec
  refine Eq.trans ?_ (dif_pos known).symm
  exact (each _ among other ((kind_eq_iff lawful).mp chosen)).symm

/-- Collections that match have equal sums over their first representatives. -/
theorem distinctSum_eq_of_matched (lawful : Equivalence fun item other => alike item other = true)
    (digest : α → UInt64)
    (each : ∀ item ∈ left, ∀ other, alike item other = true → digest item = digest other)
    (matched : Matched (fun item other => alike item other = true) left right) :
    distinctSum alike [] (left.map fun item => (item, digest item)) =
      distinctSum alike [] (right.map fun item => (item, digest item)) := by
  obtain ⟨value, digests⟩ := exists_kindDigest lawful each
  have ofLeft : ∀ item ∈ left, digest item = value (kind alike item) :=
    fun item member => digests item member item (lawful.refl item)
  have ofRight : ∀ item ∈ right, digest item = value (kind alike item) := by
    intro item member
    obtain ⟨other, among, same⟩ := matched.2 item member
    exact digests other among item same
  have kinds : newKinds alike [] left = newKinds alike [] right := by
    ext members
    simp only [mem_newKinds, List.mem_map]
    constructor
    · rintro ⟨⟨item, member, rfl⟩, new⟩
      obtain ⟨other, among, same⟩ := matched.1 item member
      exact ⟨⟨other, among, ((kind_eq_iff lawful).mpr same).symm⟩, new⟩
    · rintro ⟨⟨item, member, rfl⟩, new⟩
      obtain ⟨other, among, same⟩ := matched.2 item member
      exact ⟨⟨other, among, (kind_eq_iff lawful).mpr same⟩, new⟩
  rw [distinctSum_eq_sum lawful ofLeft, distinctSum_eq_sum lawful ofRight, kinds]

/-- One item of each kind: no two of them are equal, and each of the items has an equal one. -/
structure Represents (alike : α → α → Bool) (kept items : List α) : Prop where
  apart : kept.Pairwise fun item other => alike item other = false
  matched : Matched (fun item other => alike item other = true) kept items

/-- Items of which no two are equal count one by one. -/
theorem distinctSum_of_apart (apart : items.Pairwise fun item other => alike item other = false)
    (new : ∀ item ∈ items, ∀ other ∈ earlier, alike other item = false) :
    distinctSum alike earlier (items.map fun item => (item, digest item)) =
      (UInt64.ofNat items.length, (items.map digest).sum) := by
  induction items generalizing earlier with
  | nil => rfl
  | cons item items ih =>
    obtain ⟨unlike, apart⟩ := List.pairwise_cons.mp apart
    obtain ⟨unseen, new⟩ := List.forall_mem_cons.mp new
    -- No item after this one equals it, so that it joins the earlier items.
    have later : ∀ other ∈ items, ∀ before ∈ item :: earlier, alike before other = false :=
      fun other member => List.forall_mem_cons.mpr ⟨unlike other member, new other member⟩
    have rest := ih apart later
    have known : ¬ earlier.any (alike · item) = true := by simpa using unseen
    rw [List.map_cons, distinctSum_cons, if_neg known, rest]
    apply Prod.ext
    · simp [add_comm]
    · simp

/-- A sum over first representatives is the sum over any others. -/
theorem distinctSum_of_represents (lawful : Equivalence fun item other => alike item other = true)
    (digest : α → UInt64)
    (each : ∀ item other, alike item other = true → digest item = digest other)
    (represents : Represents alike left right) :
    distinctSum alike [] (right.map fun item => (item, digest item)) =
      (UInt64.ofNat left.length, (left.map digest).sum) := by
  -- The representatives match what they represent, and all of them count.
  rw [← distinctSum_eq_of_matched lawful digest (fun item _ => each item) represents.matched]
  exact distinctSum_of_apart represents.apart fun item _ => List.forall_mem_nil _

end Kinds

/-! ### Words of equal data -/

variable {hash : Hasher} {left right : List Datum}

theorem same_equivalence : Equivalence fun left right : Datum => left.same right = true :=
  ⟨same_refl, same_symm, same_trans⟩

/-- Whether two entries are equal in key and value. -/
def sameEntry (left right : Datum × Datum) : Bool := left.1.same right.1 && left.2.same right.2

theorem sameEntry_iff {left right : Datum × Datum} :
    sameEntry left right = true ↔ SameEntry left right := by
  rw [sameEntry, Bool.and_eq_true]
  rfl

theorem sameEntry_equivalence : Equivalence fun left right => sameEntry left right = true where
  refl entry := sameEntry_iff.mpr ⟨same_refl _, same_refl _⟩
  symm same := by
    obtain ⟨keys, values⟩ := sameEntry_iff.mp same
    exact sameEntry_iff.mpr ⟨same_symm keys, same_symm values⟩
  trans first second := by
    obtain ⟨keys, values⟩ := sameEntry_iff.mp first
    obtain ⟨keys', values'⟩ := sameEntry_iff.mp second
    exact sameEntry_iff.mpr ⟨same_trans keys keys', same_trans values values'⟩

/-- The digest of an entry, which feeds its key and then its value. -/
def entryDigest (hash : Hasher) (entry : Datum × Datum) : UInt64 :=
  hash (entry.1.words hash ++ entry.2.words hash)

theorem digests_eq_map (items : List Datum) :
    digests hash items = items.map fun item => (item, item.digest hash) := by
  induction items with
  | nil => rfl
  | cons item items ih => rw [digests, ih, List.map_cons, digest]

theorem entryDigests_eq_map (entries : List (Datum × Datum)) :
    entryDigests hash entries = entries.map fun entry => (entry, entryDigest hash entry) := by
  induction entries with
  | nil => rfl
  | cons entry entries ih =>
    obtain ⟨key, value⟩ := entry
    rw [entryDigests, ih, List.map_cons, entryDigest]

theorem itemWords_eq (items : List.Forall₂ (fun item other => item.words hash = other.words hash) left
    right) : itemWords hash left = itemWords hash right := by
  induction items with
  | nil => rfl
  | cons same _ ih => rw [itemWords, itemWords, same, ih]

theorem words_eq_of_same {left right : Datum} (same : left.same right = true) :
    left.words hash = right.words hash := by
  induction left using Datum.induction generalizing right with
  | atom value =>
    cases same_iff.mp same
    rfl
  | seq shape items ih =>
    cases same_iff.mp same with
    | @ordered _ _ others kind pairs =>
      have fed : itemWords hash items = itemWords hash others := by
        apply itemWords_eq
        exact ((List.forall₂_and_left ..).mpr ⟨ih, pairs⟩).imp fun _ _ step => step.1 step.2
      cases shape with
      | set => exact absurd rfl kind
      | list | vector => simp only [words, fed, pairs.length_eq]
    | set matched =>
      have sums := distinctSum_eq_of_matched same_equivalence (digest hash)
        (fun item member other same => congrArg hash (ih item member same)) matched
      simp only [words, digests_eq_map, sums]
  | map entries ih =>
    cases same_iff.mp same with
    | @map _ others matched =>
      have matched : Matched (fun entry other => sameEntry entry other = true) entries others := by
        simpa only [Matched, sameEntry_iff] using matched
      have each : ∀ entry ∈ entries, ∀ other, sameEntry entry other = true →
          entryDigest hash entry = entryDigest hash other := by
        intro entry member other same
        obtain ⟨keys, values⟩ := sameEntry_iff.mp same
        rw [entryDigest, entryDigest, (ih entry member).1 keys, (ih entry member).2 values]
      have sums := distinctSum_eq_of_matched sameEntry_equivalence _ each matched
      simp only [words, entryDigests_eq_map]
      exact congrArg (fun sum => [10, sum.1, sum.2]) sums

theorem digest_eq_of_same {left right : Datum} (same : left.same right = true) :
    left.digest hash = right.digest hash := by
  rw [digest, digest, words_eq_of_same same]

/-- The digests of a hasher. -/
@[reducible] def hashable (hash : Hasher) : Hashable Datum := ⟨digest hash⟩

theorem lawfulHashable (hash : Hasher) : @LawfulHashable Datum _ (hashable hash) :=
  @LawfulHashable.mk Datum _ (hashable hash) fun _ _ => digest_eq_of_same

/-! ### Words of collections -/

theorem entryDigest_eq_of_sameEntry {entry other : Datum × Datum}
    (same : sameEntry entry other = true) : entryDigest hash entry = entryDigest hash other := by
  obtain ⟨keys, values⟩ := sameEntry_iff.mp same
  rw [entryDigest, entryDigest, words_eq_of_same keys, words_eq_of_same values]

/-- A set feeds the number and the sum of any representatives of its items. -/
theorem words_set_of_represents {kept items : List Datum} (represents : Represents same kept items) :
    (Datum.seq .set items).words hash =
      [shapeWord .set, UInt64.ofNat kept.length, (kept.map (digest hash)).sum] := by
  have sum := distinctSum_of_represents same_equivalence (digest hash)
    (fun _ _ => digest_eq_of_same) represents
  simp only [words, digests_eq_map]
  exact congrArg (fun sum => [shapeWord .set, sum.1, sum.2]) sum

theorem words_map_of_represents {kept entries : List (Datum × Datum)}
    (represents : Represents sameEntry kept entries) :
    (Datum.map entries).words hash =
      [10, UInt64.ofNat kept.length, (kept.map (entryDigest hash)).sum] := by
  have sum := distinctSum_of_represents sameEntry_equivalence (entryDigest hash)
    (fun _ _ => entryDigest_eq_of_sameEntry) represents
  simp only [words, entryDigests_eq_map]
  exact congrArg (fun sum => [10, sum.1, sum.2]) sum

/-- Data that are the same feed the same words to every hasher. The sum over a set or a map counts each
item once, so it depends neither on the order nor on the repetition of the items, and equals the sum
over any choice of distinct ones. -/
theorem same_digests (hash : Hasher) :
    (∀ left right : Datum, left.same right = true → left.words hash = right.words hash) ∧
    (∀ left right : Datum, Shuffled left right → left.words hash = right.words hash) ∧
    (∀ left right, Matched (fun item other => item.same other = true) left right →
      distinctSum same [] (digests hash left) = distinctSum same [] (digests hash right)) ∧
    (∀ left right, Matched (fun entry other => sameEntry entry other = true) left right →
      distinctSum sameEntry [] (entryDigests hash left) =
        distinctSum sameEntry [] (entryDigests hash right)) ∧
    (∀ kept items, Represents same kept items →
      (Datum.seq .set items).words hash =
        [shapeWord .set, UInt64.ofNat kept.length, (kept.map (digest hash)).sum]) ∧
    ∀ kept entries, Represents sameEntry kept entries →
      (Datum.map entries).words hash =
        [10, UInt64.ofNat kept.length, (kept.map (entryDigest hash)).sum] := by
  refine ⟨fun _ _ => words_eq_of_same, fun _ _ shuffled => words_eq_of_same shuffled.same,
    fun left right matched => ?_, fun left right matched => ?_,
    fun _ _ => words_set_of_represents, fun _ _ => words_map_of_represents⟩
  · rw [digests_eq_map, digests_eq_map]
    exact distinctSum_eq_of_matched same_equivalence _ (fun _ _ _ => digest_eq_of_same) matched
  · rw [entryDigests_eq_map, entryDigests_eq_map]
    exact distinctSum_eq_of_matched sameEntry_equivalence _
      (fun _ _ _ => entryDigest_eq_of_sameEntry) matched

/-- A hasher that turns what it has, mixes in the next word and multiplies. -/
def folding : Hasher :=
  List.foldl (fun state word => ((state <<< 5 ||| state >>> 59) ^^^ word) * 0x517cc1b727220a95) 0

def numbers : List Datum := [.atom (.int 1), .atom (.int 2)]

/-- The numbers in another order, and one of them twice. -/
def reordered : List Datum := [.atom (.int 2), .atom (.int 1), .atom (.int 2)]

def numbered : List (Datum × Datum) := [(.seq .set numbers, .atom .nil)]

/-- The entry twice, in two spellings. -/
def respelled : List (Datum × Datum) :=
  [(.seq .set numbers, .atom .nil), (.seq .set reordered, .atom .nil)]

/-- The sets, the maps that have them as keys, and vectors of these maps feed the same words. -/
theorem respelled_digests :
    (Represents same numbers reordered ∧
      distinctSum same [] (digests folding numbers) =
        distinctSum same [] (digests folding reordered) ∧
      (Datum.seq .set reordered).words folding = [11, 2, 2993746818039620487]) ∧
    (Represents sameEntry numbered respelled ∧
      distinctSum sameEntry [] (entryDigests folding numbered) =
        distinctSum sameEntry [] (entryDigests folding respelled) ∧
      (Datum.map respelled).words folding = [10, 1, 2427472542814422288]) ∧
    ((Datum.map numbered).same (.map respelled) = true ∧
      (Datum.map numbered).words folding = (Datum.map respelled).words folding) ∧
    Shuffled (.seq .vector [.map numbered]) (.seq .vector [.map respelled]) ∧
      (Datum.seq .vector [.map numbered]).words folding =
        (Datum.seq .vector [.map respelled]).words folding := by
  obtain ⟨feeds, shuffles, items, entries, sets, maps⟩ := same_digests folding
  have ofItems : Represents same numbers reordered := ⟨by decide, by decide, by decide⟩
  have ofEntries : Represents sameEntry numbered respelled := ⟨by decide, by decide, by decide⟩
  have equal : (Datum.map numbered).same (.map respelled) = true := by decide
  have moved : Shuffled (.seq .vector [.map numbered]) (.seq .vector [.map respelled]) :=
    shuffled_of_same rfl
  refine ⟨⟨ofItems, items _ _ ofItems.matched, ?_⟩, ⟨ofEntries, entries _ _ ofEntries.matched, ?_⟩,
    ⟨equal, feeds _ _ equal⟩, moved, shuffles _ _ moved⟩
  · exact sets _ _ ofItems
  · exact maps _ _ ofEntries

end LispScope.Datum
