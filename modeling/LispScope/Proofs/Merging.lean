import LispScope.Span
import Mathlib.Data.Prod.Lex
import Mathlib.Order.Bounds.Basic
import Mathlib.Order.MinMax

/-!
# Merging spans

Main statement: `Span.foldl_merge_hull`. Merging is associative, and merging a sequence of spans one
after the other gives the hull of those among them that stand in the source: the first start, the last
stop, the first place and the first file.

Each part of a merged span has a rule of its own. Start and stop are a minimum and a maximum, line and
column together are a minimum in the order of places, and none of the three looks at the order of the
spans. The file is the one that comes first, so that it alone can change when spans change places. A
synthetic span beside a placed one is dropped, with the file that it may carry.
-/
namespace LispScope.Span

variable {left right span whole whole' : Span} {before after spans others : List Span}

/-- Line and column of the first character, in the order of the text. -/
def place (span : Span) : ℕ ×ₗ ℕ := toLex (span.line, span.col)

theorem beginsBy_iff : left.beginsBy right = true ↔ left.place ≤ right.place := by
  simp [beginsBy, place, Prod.Lex.toLex_le_toLex]

theorem isSynthetic_of_place (same : left.place = right.place) :
    left.isSynthetic = right.isSynthetic := by
  have lines : left.line = right.line := congrArg (fun place => (ofLex place).1) same
  simp only [isSynthetic, lines]

/-- The two spans differ in the file at most. -/
structure Coincide (left right : Span) : Prop where
  start : left.start = right.start
  stop : left.stop = right.stop
  place : left.place = right.place

theorem Coincide.eq (same : left.Coincide right) (file : left.file = right.file) : left = right := by
  obtain ⟨start, stop, place⟩ := same
  have line : left.line = right.line := congrArg (fun place => (ofLex place).1) place
  have col : left.col = right.col := congrArg (fun place => (ofLex place).2) place
  cases left
  cases right
  simp_all

/-! ### Two spans -/

section Placed

variable (here : left.isSynthetic = false) (there : right.isSynthetic = false)

include here there

theorem start_merge : (left.merge right).start = min left.start right.start := by
  simp [merge, here, there]

theorem stop_merge : (left.merge right).stop = max left.stop right.stop := by
  simp [merge, here, there]

theorem file_merge : (left.merge right).file = left.file.or right.file := by
  simp [merge, here, there]

theorem place_merge : (left.merge right).place = min left.place right.place := by
  -- Line and column come from one span, the one that begins first.
  have first : (left.merge right).place = (if left.beginsBy right then left else right).place := by
    simp [merge, here, there, place]
  simp only [first, beginsBy_iff, min_def]
  split
  · rfl
  · rfl

end Placed

/-- The merged span is synthetic only if both are. -/
theorem isSynthetic_merge (left right : Span) :
    (left.merge right).isSynthetic = (left.isSynthetic && right.isSynthetic) := by
  cases here : left.isSynthetic with
  | true => rw [merge_of_isSynthetic_left here, Bool.true_and]
  | false =>
    cases there : right.isSynthetic with
    | true => rw [merge_of_isSynthetic_right left here there, here, Bool.false_and]
    | false =>
      -- The merged span begins where one of the two does.
      have place := place_merge here there
      rcases min_choice left.place right.place with first | first
      · rw [isSynthetic_of_place (place.trans first), here, Bool.false_and]
      · rw [isSynthetic_of_place (place.trans first), there, Bool.and_false]

theorem merge_assoc (left middle right : Span) :
    (left.merge middle).merge right = left.merge (middle.merge right) := by
  cases first : left.isSynthetic with
  | true => simp only [merge_of_isSynthetic_left first]
  | false =>
    cases second : middle.isSynthetic with
    | true => rw [merge_of_isSynthetic_right left first second, merge_of_isSynthetic_left second]
    | false =>
      have earlier : (left.merge middle).isSynthetic = false := by simp [isSynthetic_merge, first]
      cases third : right.isSynthetic with
      | true => simp only [merge_of_isSynthetic_right _ earlier third,
          merge_of_isSynthetic_right _ second third]
      | false =>
        -- All three stand in the source, and each part is associative by itself.
        have later : (middle.merge right).isSynthetic = false := by simp [isSynthetic_merge, second]
        apply Coincide.eq
        · constructor
          · simp only [start_merge, first, second, third, earlier, later, min_assoc]
          · simp only [stop_merge, first, second, third, earlier, later, max_assoc]
          · simp only [place_merge, first, second, third, earlier, later, min_assoc]
        · simp only [file_merge, first, second, third, earlier, later, Option.or_assoc]

/-! ### Hulls -/

/-- The whole that some spans make up: from the first start to the last stop, beginning at the first
place, in the first file that is known. -/
structure Hull (spans : List Span) (whole : Span) : Prop where
  start : IsLeast (Span.start '' {span | span ∈ spans}) whole.start
  stop : IsGreatest (Span.stop '' {span | span ∈ spans}) whole.stop
  place : IsLeast (Span.place '' {span | span ∈ spans}) whole.place
  file : whole.file = spans.findSome? Span.file

/-- No byte of the span is outside of the whole, and the whole begins no later. -/
structure Covers (whole span : Span) : Prop where
  start : whole.start ≤ span.start
  stop : span.stop ≤ whole.stop
  place : whole.beginsBy span = true

namespace Hull

theorem singleton (span : Span) : Hull [span] span := by
  have alone : {other | other ∈ [span]} = {span} := by simp
  constructor
  · simp only [alone, Set.image_singleton, isLeast_singleton]
  · simp only [alone, Set.image_singleton, isGreatest_singleton]
  · simp only [alone, Set.image_singleton, isLeast_singleton]
  · simp

/-- Two wholes in the source are merged to the whole of all their spans. -/
theorem append (first : Hull before left) (second : Hull after right)
    (here : left.isSynthetic = false) (there : right.isSynthetic = false) :
    Hull (before ++ after) (left.merge right) := by
  have both : {span | span ∈ before ++ after} =
      {span | span ∈ before} ∪ {span | span ∈ after} := by
    ext span
    simp
  constructor
  · rw [both, Set.image_union, start_merge here there]
    exact first.start.union second.start
  · rw [both, Set.image_union, stop_merge here there]
    exact first.stop.union second.stop
  · rw [both, Set.image_union, place_merge here there]
    exact first.place.union second.place
  · rw [file_merge here there, first.file, second.file, List.findSome?_append]

theorem covers (hull : Hull spans whole) (member : span ∈ spans) : whole.Covers span where
  start := hull.start.2 ⟨span, member, rfl⟩
  stop := hull.stop.2 ⟨span, member, rfl⟩
  place := beginsBy_iff.mpr (hull.place.2 ⟨span, member, rfl⟩)

/-- A whole is given by its spans in any order, but for the file. -/
theorem coincide (hull : Hull spans whole) (hull' : Hull others whole') (moved : others.Perm spans) :
    whole'.Coincide whole := by
  -- All parts but the file are bounds of a set, which has no order.
  have same : {span | span ∈ others} = {span | span ∈ spans} := by
    ext span
    exact moved.mem_iff
  have start := hull'.start
  have stop := hull'.stop
  have place := hull'.place
  rw [same] at start stop place
  exact ⟨start.unique hull.start, stop.unique hull.stop, place.unique hull.place⟩

end Hull

/-! ### Sequences of spans -/

/-- The spans that stand in the source. -/
def placed (spans : List Span) : List Span := spans.filter fun span => !span.isSynthetic

theorem mem_placed : span ∈ placed spans ↔ span ∈ spans ∧ span.isSynthetic = false := by
  simp [placed]

theorem placed_append (before after : List Span) :
    placed (before ++ after) = placed before ++ placed after := by
  simp [placed]

/-- What merging some spans can give: a synthetic span if none of them is placed, and the hull of the
placed ones otherwise. -/
inductive Merges (spans : List Span) (whole : Span) : Prop
  | nowhere (empty : placed spans = []) (synthetic : whole.isSynthetic = true)
  | somewhere (present : whole.isSynthetic = false) (hull : Hull (placed spans) whole)

namespace Merges

theorem singleton (span : Span) : Merges [span] span := by
  cases synthetic : span.isSynthetic with
  | true => exact .nowhere (by simp [placed, synthetic]) synthetic
  | false =>
    have all : placed [span] = [span] := by simp [placed, synthetic]
    apply Merges.somewhere synthetic
    rw [all]
    exact .singleton span

/-- One merge. A side without placed spans leaves the other one as it is. -/
theorem append (first : Merges before left) (second : Merges after right) :
    Merges (before ++ after) (left.merge right) := by
  cases first with
  | nowhere empty synthetic =>
    have same : placed (before ++ after) = placed after := by simp [placed_append, empty]
    rw [merge_of_isSynthetic_left synthetic]
    cases second with
    | nowhere empty' synthetic' => exact .nowhere (same.trans empty') synthetic'
    | somewhere there hull => exact .somewhere there (same ▸ hull)
  | somewhere here hull =>
    cases second with
    | nowhere empty synthetic =>
      have same : placed (before ++ after) = placed before := by simp [placed_append, empty]
      rw [merge_of_isSynthetic_right left here synthetic]
      exact .somewhere here (same ▸ hull)
    | somewhere there hull' =>
      -- Both sides have met placed spans, and the hulls of these are merged.
      apply Merges.somewhere
      · rw [isSynthetic_merge, here, Bool.false_and]
      · rw [placed_append]
        exact hull.append hull' here there

/-- A run of merges, after the spans that have been merged before. -/
theorem foldl (merges : Merges before whole) (rest : List Span) :
    Merges (before ++ rest) (rest.foldl merge whole) := by
  induction rest generalizing before whole with
  | nil => simpa using merges
  | cons span rest ih =>
    -- The next span is a run of its own, merged with all before it.
    have next := ih (merges.append (.singleton span))
    simpa using next

/-- Where one span is placed, the hull is what remains. -/
theorem of_placed {first : Span} {rest : List Span}
    (present : ∃ span ∈ first :: rest, span.isSynthetic = false) :
    (rest.foldl merge first).isSynthetic = false ∧
      Hull (placed (first :: rest)) (rest.foldl merge first) := by
  obtain ⟨span, member, somewhere⟩ := present
  have merges : Merges (first :: rest) (rest.foldl merge first) := (singleton first).foldl rest
  cases merges with
  | nowhere empty _ =>
    have among : span ∈ placed (first :: rest) := mem_placed.mpr ⟨member, somewhere⟩
    rw [empty] at among
    cases among
  | somewhere present hull => exact ⟨present, hull⟩

end Merges

/-- Spans merge in any grouping. Merging a list of spans, one of which is placed, gives the hull of the
placed ones, which covers each of them and is placed itself. The order of the list decides nothing but
the file. -/
theorem foldl_merge_hull :
    (∀ left middle right : Span,
      (left.merge middle).merge right = left.merge (middle.merge right)) ∧
    ∀ (first : Span) (rest : List Span), (∃ span ∈ first :: rest, span.isSynthetic = false) →
      Hull (placed (first :: rest)) (rest.foldl merge first) ∧
      (rest.foldl merge first).isSynthetic = false ∧
      (∀ span ∈ first :: rest, span.isSynthetic = false → (rest.foldl merge first).Covers span) ∧
      ∀ first' rest', (first' :: rest').Perm (first :: rest) →
        (rest'.foldl merge first').Coincide (rest.foldl merge first) := by
  refine ⟨merge_assoc, fun first rest present => ?_⟩
  obtain ⟨somewhere, hull⟩ := Merges.of_placed present
  refine ⟨hull, somewhere, fun span member placed => ?_, fun first' rest' moved => ?_⟩
  · exact hull.covers (mem_placed.mpr ⟨member, placed⟩)
  · have present' : ∃ span ∈ first' :: rest', span.isSynthetic = false := by
      simpa only [moved.mem_iff] using present
    have hull' := (Merges.of_placed present').2
    exact hull.coincide hull' (moved.filter _)

/-- A synthetic span with a file. -/
def generated : Span := ⟨9, 9, 0, 7, some "macros.clj"⟩

/-- A span of one file. -/
def early : Span := ⟨0, 5, 3, 1, some "user.clj"⟩

/-- A span of another file, on an earlier line but at a later byte. -/
def late : Span := ⟨12, 40, 2, 3, some "core.clj"⟩

/-- Merged in the other order, the spans make up the same whole, in the other file. -/
theorem scattered_hull :
    (∃ span ∈ [generated, late, .synthetic, early], span.isSynthetic = false) ∧
      Hull [late, early] ⟨0, 40, 2, 3, some "core.clj"⟩ ∧
      Covers ⟨0, 40, 2, 3, some "core.clj"⟩ early ∧
      Coincide ⟨0, 40, 2, 3, some "user.clj"⟩ ⟨0, 40, 2, 3, some "core.clj"⟩ := by
  have present : ∃ span ∈ [generated, late, .synthetic, early], span.isSynthetic = false :=
    ⟨late, by decide, rfl⟩
  obtain ⟨hull, -, covers, moves⟩ := foldl_merge_hull.2 generated [late, .synthetic, early] present
  have moved : [early, .synthetic, late, generated].Perm [generated, late, .synthetic, early] :=
    List.reverse_perm [generated, late, .synthetic, early]
  exact ⟨present, hull, covers early (by decide) rfl, moves early _ moved⟩

end LispScope.Span
