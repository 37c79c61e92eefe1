import LispScope.Datum.Equality
import Mathlib.Data.List.Forall2

/-!
# Equality of data is an equivalence

Equality goes through a datum part by part, so each law is an induction over the datum: the items of
lists and vectors are compared in pairs, those of sets and the entries of maps are matched both ways.
-/
namespace LispScope

/-- Each item on either side has a related one on the other. -/
def Matched (related : α → α → Prop) (left right : List α) : Prop :=
  (∀ item ∈ left, ∃ other ∈ right, related item other) ∧
    ∀ item ∈ right, ∃ other ∈ left, related other item

namespace Matched

variable {related : α → α → Prop} {left middle right : List α}

theorem refl (each : ∀ item ∈ left, related item item) : Matched related left left :=
  ⟨fun item member => ⟨item, member, each item member⟩,
    fun item member => ⟨item, member, each item member⟩⟩

theorem symm (each : ∀ item ∈ left, ∀ other, related item other → related other item)
    (matched : Matched related left right) : Matched related right left := by
  constructor
  · intro item member
    obtain ⟨other, among, same⟩ := matched.2 item member
    exact ⟨other, among, each other among item same⟩
  · intro item member
    obtain ⟨other, among, same⟩ := matched.1 item member
    exact ⟨other, among, each item member other same⟩

theorem trans
    (each : ∀ item ∈ left, ∀ other last, related item other → related other last → related item last)
    (first : Matched related left middle) (second : Matched related middle right) :
    Matched related left right := by
  constructor
  · intro item member
    obtain ⟨other, among, same⟩ := first.1 item member
    obtain ⟨last, among, same'⟩ := second.1 other among
    exact ⟨last, among, each item member other last same same'⟩
  · intro item member
    obtain ⟨other, among, same⟩ := second.2 item member
    obtain ⟨first, among, same'⟩ := first.2 other among
    exact ⟨first, among, each first among other item same' same⟩

end Matched

theorem pairs_trans {related : α → α → Prop} {left middle right : List α}
    (each : ∀ item ∈ left, ∀ other last, related item other → related other last → related item last)
    (first : List.Forall₂ related left middle) (second : List.Forall₂ related middle right) :
    List.Forall₂ related left right := by
  induction first generalizing right with
  | nil => exact second
  | cons same _ ih =>
    cases second with
    | cons same' rest' =>
      refine .cons (each _ (List.mem_cons_self ..) _ _ same same') (ih ?_ rest')
      exact fun item member => each item (List.mem_cons_of_mem _ member)

namespace Datum

theorem induction {motive : Datum → Prop} (atom : ∀ value, motive (.atom value))
    (seq : ∀ shape items, (∀ item ∈ items, motive item) → motive (.seq shape items))
    (map : ∀ entries, (∀ entry ∈ entries, motive entry.1 ∧ motive entry.2) → motive (.map entries))
    (datum : Datum) : motive datum := by
  refine @Datum.rec motive (fun items => ∀ item ∈ items, motive item)
    (fun entries => ∀ entry ∈ entries, motive entry.1 ∧ motive entry.2)
    (fun entry => motive entry.1 ∧ motive entry.2) atom seq map ?_ ?_ ?_ ?_ ?_ datum
  · exact List.forall_mem_nil _
  · exact fun item items here rest => List.forall_mem_cons.mpr ⟨here, rest⟩
  · exact List.forall_mem_nil _
  · exact fun entry entries here rest => List.forall_mem_cons.mpr ⟨here, rest⟩
  · exact fun key value left right => ⟨left, right⟩

/-- Two entries are equal in key and value. -/
def SameEntry (left right : Datum × Datum) : Prop :=
  left.1.same right.1 = true ∧ left.2.same right.2 = true

theorem sameItems_iff {left right : List Datum} :
    sameItems left right = true ↔ List.Forall₂ (fun item other => item.same other = true) left right := by
  induction left generalizing right with
  | nil => cases right <;> simp [sameItems]
  | cons item left ih => cases right <;> simp [sameItems, ih]

/-- How two equal data are built. -/
inductive Alike : Datum → Datum → Prop
  | atom : Alike (.atom value) (.atom value)
  | ordered (kind : shape ≠ .set)
      (items : List.Forall₂ (fun item other => item.same other = true) left right) :
      Alike (.seq shape left) (.seq shape right)
  | set (items : Matched (fun item other => item.same other = true) left right) :
      Alike (.seq .set left) (.seq .set right)
  | map (entries : Matched SameEntry left right) : Alike (.map left) (.map right)

theorem same_iff {left right : Datum} : left.same right = true ↔ Alike left right := by
  constructor
  · intro same
    cases left with
    | atom value =>
      cases right with
      | atom other =>
        obtain rfl : value = other := by simpa [Datum.same] using same
        exact .atom
      | seq | map => cases same
    | seq shape items =>
      cases right with
      | seq shape' others =>
        cases shape <;> cases shape' <;>
          first
          | exact .ordered (by decide) (by simpa [Datum.same, sameItems_iff] using same)
          | exact .set (by simpa [Datum.same, covers_eq_all, holds_eq_any, Matched] using same)
          | cases same
      | atom | map => cases shape <;> cases same
    | map entries =>
      cases right with
      | map others =>
        refine .map ?_
        simpa [Datum.same, coversEntries_eq_all, holdsEntry_eq_any, Matched, SameEntry] using same
      | atom | seq => cases same
  · intro alike
    cases alike with
    | atom => simp [Datum.same]
    | @ordered shape left right kind items =>
      cases shape with
      | set => exact absurd rfl kind
      | list | vector => simpa [Datum.same, sameItems_iff] using items
    | set items => simpa [Datum.same, covers_eq_all, holds_eq_any, Matched] using items
    | map entries =>
      simpa [Datum.same, coversEntries_eq_all, holdsEntry_eq_any, Matched, SameEntry] using entries

theorem same_refl (datum : Datum) : datum.same datum = true := by
  rw [same_iff]
  induction datum using Datum.induction with
  | atom value => exact .atom
  | seq shape items ih =>
    by_cases kind : shape = .set
    · subst kind
      exact .set (.refl fun item member => same_iff.mpr (ih item member))
    · exact .ordered kind (List.forall₂_same.mpr fun item member => same_iff.mpr (ih item member))
  | map entries ih =>
    exact .map (.refl fun entry member =>
      ⟨same_iff.mpr (ih entry member).1, same_iff.mpr (ih entry member).2⟩)

theorem same_symm {left right : Datum} (same : left.same right = true) : right.same left = true := by
  induction left using Datum.induction generalizing right with
  | atom value =>
    cases same_iff.mp same
    exact same_iff.mpr .atom
  | seq shape items ih =>
    apply same_iff.mpr
    rcases same_iff.mp same with _ | ⟨kind, items⟩ | items
    · have both := (List.forall₂_and_left ..).mpr ⟨ih, items⟩
      exact .ordered kind (both.imp fun _ _ step => step.1 step.2).flip
    · exact .set (items.symm fun item member _ => ih item member)
  | map entries ih =>
    apply same_iff.mpr
    rcases same_iff.mp same with _ | _ | _ | entries
    exact .map (entries.symm fun entry member _ parts =>
      ⟨(ih entry member).1 parts.1, (ih entry member).2 parts.2⟩)

theorem same_trans {left middle right : Datum} (first : left.same middle = true)
    (second : middle.same right = true) : left.same right = true := by
  induction left using Datum.induction generalizing middle right with
  | atom value =>
    cases same_iff.mp first
    exact second
  | seq shape items ih =>
    apply same_iff.mpr
    rcases same_iff.mp first with _ | ⟨kind, items⟩ | items
    · rcases same_iff.mp second with _ | ⟨_, items'⟩ | _
      · exact .ordered kind (pairs_trans (fun item member _ _ => ih item member) items items')
      · exact absurd rfl kind
    · rcases same_iff.mp second with _ | ⟨kind, _⟩ | items'
      · exact absurd rfl kind
      · exact .set (items.trans (fun item member _ _ => ih item member) items')
  | map entries ih =>
    apply same_iff.mpr
    rcases same_iff.mp first with _ | _ | _ | entries
    rcases same_iff.mp second with _ | _ | _ | entries'
    refine .map (entries.trans (fun entry member _ _ parts parts' => ?_) entries')
    exact ⟨(ih entry member).1 parts.1 parts'.1, (ih entry member).2 parts.2 parts'.2⟩

instance : EquivBEq Datum where
  symm := same_symm
  trans := same_trans
  rfl := same_refl _

end Datum

end LispScope
