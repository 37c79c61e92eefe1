import LispScope.Proofs.Equality
import Mathlib.Logic.Relation

/-!
# Equality of data as rearrangement

Main statement: `same_iff_shuffled`. Two data are equal exactly if one is turned into the other by
changing the order of entries of sets and maps and by repeating entries, or taking repetitions away, at
any depth. Nothing moves in lists and vectors (`same_ordered_iff`).

One rearrangement leaves an equal datum, hence so does every run of them. Conversely, two sets that
match are joined through the set of all items of both: the items of the second one are
added as repetitions of their partners, and those of the first one then become repetitions of theirs.
-/
namespace LispScope

/-- The entries of one list are those of the other in another order, or with one of them repeated. -/
inductive Rearranges : List α → List α → Prop
  | order (moved : left.Perm right) : Rearranges left right
  | again (member : item ∈ items) : Rearranges items (item :: items)

theorem Rearranges.mem_iff {left right : List α} (rearranges : Rearranges left right) (item : α) :
    item ∈ left ↔ item ∈ right := by
  cases rearranges with
  | order moved => exact moved.mem_iff
  | again member =>
    rw [List.mem_cons, iff_or_self]
    rintro rfl
    exact member

theorem Matched.imp {related related' : α → α → Prop} {left right : List α}
    (matched : Matched related left right)
    (each : ∀ item ∈ left, ∀ other, related item other → related' item other) :
    Matched related' left right := by
  constructor
  · intro item member
    obtain ⟨other, among, same⟩ := matched.1 item member
    exact ⟨other, among, each item member other same⟩
  · intro item member
    obtain ⟨other, among, same⟩ := matched.2 item member
    exact ⟨other, among, each other among item same⟩

theorem Matched.of_forall₂ {related : α → α → Prop} {left right : List α}
    (pairs : List.Forall₂ related left right) : Matched related left right := by
  induction pairs with
  | nil => exact ⟨nofun, nofun⟩
  | cons same _ ih =>
    constructor
    · intro item member
      rcases List.mem_cons.mp member with rfl | member
      · exact ⟨_, List.mem_cons_self .., same⟩
      · obtain ⟨other, among, same⟩ := ih.1 item member
        exact ⟨other, List.mem_cons_of_mem _ among, same⟩
    · intro item member
      rcases List.mem_cons.mp member with rfl | member
      · exact ⟨_, List.mem_cons_self .., same⟩
      · obtain ⟨other, among, same⟩ := ih.2 item member
        exact ⟨other, List.mem_cons_of_mem _ among, same⟩

/-- Partners on the one side for all items of the other make up a list of partners. -/
theorem exists_partners {related : α → β → Prop} {left : List α} {right : List β}
    (each : ∀ item ∈ left, ∃ other ∈ right, related item other) :
    ∃ partners, List.Forall₂ related left partners ∧ partners ⊆ right := by
  induction left with
  | nil => exact ⟨[], .nil, nofun⟩
  | cons item left ih =>
    obtain ⟨other, among, same⟩ := each item (List.mem_cons_self ..)
    obtain ⟨partners, pairs, within⟩ := ih fun item member => each item (List.mem_cons_of_mem _ member)
    exact ⟨other :: partners, .cons same pairs, List.cons_subset.mpr ⟨among, within⟩⟩

namespace Datum

/-- One rearrangement of the entries of a set or a map, somewhere in a datum. -/
inductive Shuffle : Datum → Datum → Prop
  | set (items : Rearranges left right) : Shuffle (.seq .set left) (.seq .set right)
  | map (entries : Rearranges left right) : Shuffle (.map left) (.map right)
  | item (inside : Shuffle item other) :
      Shuffle (.seq shape (before ++ item :: after)) (.seq shape (before ++ other :: after))
  | key (inside : Shuffle key other) :
      Shuffle (.map (before ++ (key, value) :: after)) (.map (before ++ (other, value) :: after))
  | value (inside : Shuffle value other) :
      Shuffle (.map (before ++ (key, value) :: after)) (.map (before ++ (key, other) :: after))

/-- Rearrangements, one after the other and in either direction. -/
def Shuffled : Datum → Datum → Prop := Relation.EqvGen Shuffle

/-! ### Rearranged data are equal -/

theorem SameEntry.refl (entry : Datum × Datum) : SameEntry entry entry :=
  ⟨same_refl _, same_refl _⟩

theorem same_seq_of_pairs {shape : Shape} {left right : List Datum}
    (pairs : List.Forall₂ (fun item other => item.same other = true) left right) :
    (Datum.seq shape left).same (.seq shape right) = true := by
  apply same_iff.mpr
  by_cases kind : shape = .set
  · subst kind
    exact .set (.of_forall₂ pairs)
  · exact .ordered kind pairs

theorem same_map_of_pairs {left right : List (Datum × Datum)}
    (pairs : List.Forall₂ SameEntry left right) : (Datum.map left).same (.map right) = true :=
  same_iff.mpr (.map (.of_forall₂ pairs))

/-- All items but one are related to themselves, and that one to the one in its place. -/
theorem pairs_replaced {related : α → α → Prop} (reflexive : ∀ item, related item item) {item other : α}
    (here : related item other) (before after : List α) :
    List.Forall₂ related (before ++ item :: after) (before ++ other :: after) :=
  List.rel_append (List.forall₂_same.mpr fun item _ => reflexive item)
    (.cons here (List.forall₂_same.mpr fun item _ => reflexive item))

theorem Shuffle.same {left right : Datum} (step : Shuffle left right) : left.same right = true := by
  induction step with
  | set items =>
    refine same_iff.mpr (.set ⟨fun item member => ⟨item, ?_, same_refl _⟩,
      fun item member => ⟨item, ?_, same_refl _⟩⟩)
    · exact (items.mem_iff item).mp member
    · exact (items.mem_iff item).mpr member
  | map entries =>
    refine same_iff.mpr (.map ⟨fun entry member => ⟨entry, ?_, .refl _⟩,
      fun entry member => ⟨entry, ?_, .refl _⟩⟩)
    · exact (entries.mem_iff entry).mp member
    · exact (entries.mem_iff entry).mpr member
  | item _ ih =>
    refine same_seq_of_pairs (pairs_replaced ?_ ?_ ..)
    · exact same_refl
    · exact ih
  | key _ ih => exact same_map_of_pairs (pairs_replaced .refl ⟨ih, same_refl _⟩ ..)
  | value _ ih => exact same_map_of_pairs (pairs_replaced .refl ⟨same_refl _, ih⟩ ..)

theorem Shuffled.same {left right : Datum} (shuffled : Shuffled left right) :
    left.same right = true := by
  induction shuffled with
  | rel _ _ step => exact step.same
  | refl datum => exact same_refl datum
  | symm _ _ _ ih => exact same_symm ih
  | trans _ _ _ _ _ first second => exact same_trans first second

/-! ### Equal data are rearranged -/

namespace Shuffled

variable {left right : Datum}

theorem trans {middle : Datum} (first : Shuffled left middle) (second : Shuffled middle right) :
    Shuffled left right := Relation.EqvGen.trans _ _ _ first second

/-- What surrounds the place of a rearrangement stays. -/
theorem lift {f : Datum → Datum} (each : ∀ left right, Shuffle left right → Shuffle (f left) (f right))
    (shuffled : Shuffled left right) : Shuffled (f left) (f right) := by
  induction shuffled with
  | rel left right step => exact .rel _ _ (each left right step)
  | refl datum => exact .refl _
  | symm _ _ _ ih => exact .symm _ _ ih
  | trans _ _ _ _ _ first second => exact trans first second

section Collection

variable {α : Type} (build : List α → Datum) {related : α → α → Prop} {items others : List α}
  (one : ∀ before after item other, related item other →
    Shuffled (build (before ++ item :: after)) (build (before ++ other :: after)))

include one

theorem replace (pairs : List.Forall₂ related items others) (before after : List α) :
    Shuffled (build (before ++ (items ++ after))) (build (before ++ (others ++ after))) := by
  induction pairs generalizing before with
  | nil => exact .refl _
  | @cons item other items others same _ ih =>
    have rest := ih (before ++ [other])
    simp only [List.append_assoc, List.singleton_append] at rest
    exact (one before (items ++ after) item other same).trans rest

variable (regroup : ∀ items others, Rearranges items others → Shuffled (build items) (build others))

include regroup

omit one in
theorem repeated {extra : List α} (within : extra ⊆ items) :
    Shuffled (build items) (build (extra ++ items)) := by
  induction extra with
  | nil => exact .refl _
  | cons item extra ih =>
    obtain ⟨member, within⟩ := List.cons_subset.mp within
    exact (ih within).trans (regroup _ _ (.again (List.mem_append_right extra member)))

theorem of_matched (matched : Matched related items others) :
    Shuffled (build items) (build others) := by
  -- The way leads over the items of both: partners are repeated first and replaced then.
  obtain ⟨onRight, pairs, within⟩ := exists_partners matched.1
  obtain ⟨onLeft, pairs', within'⟩ := exists_partners matched.2
  have added : Shuffled (build items) (build (others ++ items)) :=
    (repeated build regroup within').trans (replace build one pairs'.flip [] items)
  have dropped : Shuffled (build (items ++ others)) (build others) :=
    (replace build one pairs [] others).trans (.symm _ _ (repeated build regroup within))
  exact added.trans ((regroup _ _ (.order List.perm_append_comm)).trans dropped)

end Collection

theorem item {item other : Datum} {shape : Shape} (before after : List Datum)
    (inside : Shuffled item other) :
    Shuffled (.seq shape (before ++ item :: after)) (.seq shape (before ++ other :: after)) :=
  inside.lift (f := fun item => .seq shape (before ++ item :: after)) fun _ _ => .item

/-- An entry is rearranged in its key and in its value. -/
theorem entry {entry other : Datum × Datum} (before after : List (Datum × Datum))
    (inside : Shuffled entry.1 other.1 ∧ Shuffled entry.2 other.2) :
    Shuffled (.map (before ++ entry :: after)) (.map (before ++ other :: after)) := by
  have keys := inside.1.lift (f := fun key => .map (before ++ (key, entry.2) :: after)) fun _ _ => .key
  have values := inside.2.lift (f := fun value => .map (before ++ (other.1, value) :: after))
    fun _ _ => .value
  exact keys.trans values

end Shuffled

theorem shuffled_of_same {left right : Datum} (same : left.same right = true) :
    Shuffled left right := by
  induction left using Datum.induction generalizing right with
  | atom value =>
    cases same_iff.mp same
    exact .refl _
  | seq shape items ih =>
    cases same_iff.mp same with
    | @ordered _ _ others _ pairs =>
      have inside := ((List.forall₂_and_left ..).mpr ⟨ih, pairs⟩).imp fun _ _ step => step.1 step.2
      have replaced := Shuffled.replace (.seq shape)
        (fun before after _ _ => Shuffled.item before after) inside [] []
      simpa using replaced
    | set matched =>
      exact Shuffled.of_matched (.seq .set) (fun before after _ _ => Shuffled.item before after)
        (fun _ _ moved => .rel _ _ (.set moved)) (matched.imp fun item member _ => ih item member)
  | map entries ih =>
    cases same_iff.mp same with
    | map matched =>
      refine Shuffled.of_matched .map (fun before after _ _ => Shuffled.entry before after)
        (fun _ _ moved => .rel _ _ (.map moved)) (matched.imp fun entry member _ same => ?_)
      exact ⟨(ih entry member).1 same.1, (ih entry member).2 same.2⟩

theorem same_iff_shuffled {left right : Datum} : left.same right = true ↔ Shuffled left right :=
  ⟨shuffled_of_same, Shuffled.same⟩

/-- Lists and vectors are equal if they are of one kind and equal item by item. -/
theorem same_ordered_iff {shape shape' : Shape} (kind : shape ≠ .set) {left right : List Datum} :
    (Datum.seq shape left).same (.seq shape' right) = true ↔
      shape = shape' ∧ List.Forall₂ (fun item other => item.same other = true) left right := by
  constructor
  · intro same
    cases same_iff.mp same with
    | ordered _ pairs => exact ⟨rfl, pairs⟩
    | set => exact absurd rfl kind
  · rintro ⟨rfl, pairs⟩
    exact same_seq_of_pairs pairs

end Datum

end LispScope
