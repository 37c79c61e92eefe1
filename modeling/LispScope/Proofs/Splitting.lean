import LispScope.Special.Interpolation
import Mathlib.Data.List.Chain
import Mathlib.Data.List.Infix

/-!
# How native code is split

`Piece.Splits` says what the pieces of a text are without saying how they are found: put back
together they are the text, a piece of code is neither empty nor begins an interpolation, two pieces
of code never meet, and the braces of an interpolation are balanced. A text has at most one such
list of pieces, and `Piece.split?` finds it; a text without one is `Unclosed`.
-/
namespace LispScope.Piece

/-- What begins an interpolation. -/
def marker : List Char := ['~', '{']

/-- The braces close all of those that were open before, and none besides. -/
structure Closes (depth : Nat) (chars : List Char) : Prop where
  nested : ∀ before, before <+: chars → before.count '}' ≤ depth + before.count '{'
  closed : chars.count '}' = depth + chars.count '{'

/-- No prefix closes more braces than it opens, and the whole closes as many as it opens. -/
structure Balanced (text : String) : Prop where
  nested : ∀ before, before <+: text.toList → before.count '}' ≤ before.count '{'
  closed : text.toList.count '{' = text.toList.count '}'

def IsCode : Piece → Prop
  | code _ => True
  | interpolation _ => False

/-- The pieces of a text. -/
structure Splits (text : String) (pieces : List Piece) : Prop where
  whole : String.join (pieces.map Piece.text) = text
  plain : ∀ part, code part ∈ pieces → part ≠ "" ∧ ¬ marker <:+: part.toList
  apart : pieces.IsChain fun left right => ¬ (left.IsCode ∧ right.IsCode)
  balanced : ∀ inner, interpolation inner ∈ pieces → Balanced inner

/-- A text that has pieces up to an interpolation which no brace closes. -/
def Unclosed (text : String) : Prop :=
  ∃ scanned pieces rest, Splits scanned pieces ∧ text = scanned ++ "~\x7b" ++ rest ∧
    ∀ inner after, Balanced inner → rest ≠ inner ++ "\x7d" ++ after

/-! ### Braces -/

theorem balanced_iff {text : String} : Balanced text ↔ Closes 0 text.toList := by
  constructor
  · intro balanced
    exact ⟨fun before first => by simpa using balanced.nested before first,
      by simpa using balanced.closed.symm⟩
  · intro closes
    exact ⟨fun before first => by simpa using closes.nested before first,
      by simpa using closes.closed.symm⟩

theorem closes_nil {depth : Nat} : Closes depth [] ↔ depth = 0 := by
  constructor
  · intro closes
    simpa using closes.closed.symm
  · rintro rfl
    exact ⟨fun before first => by simp [List.prefix_nil.mp first], rfl⟩

/-- A character before a text shifts the number of braces that are open. -/
theorem closes_cons_of_counts {depth next : Nat} {c : Char} {rest : List Char}
    (counts : ∀ chars : List Char,
      ((c :: chars).count '}' ≤ depth + (c :: chars).count '{' ↔
        chars.count '}' ≤ next + chars.count '{') ∧
      ((c :: chars).count '}' = depth + (c :: chars).count '{' ↔
        chars.count '}' = next + chars.count '{')) :
    Closes depth (c :: rest) ↔ Closes next rest := by
  constructor
  · intro closes
    refine ⟨fun before first => ?_, (counts rest).2.mp closes.closed⟩
    exact (counts before).1.mp (closes.nested _ ((List.prefix_cons_inj c).mpr first))
  · intro closes
    refine ⟨fun before first => ?_, (counts rest).2.mpr closes.closed⟩
    rcases List.prefix_cons_iff.mp first with rfl | ⟨tail, rfl, tailFirst⟩
    · simp
    · exact (counts tail).1.mpr (closes.nested tail tailFirst)

theorem closes_cons {depth : Nat} {c : Char} {rest : List Char} :
    Closes depth (c :: rest) ↔
      if c = '{' then Closes (depth + 1) rest
      else if c = '}' then 0 < depth ∧ Closes (depth - 1) rest
      else Closes depth rest := by
  split_ifs with opens shuts
  · apply closes_cons_of_counts
    intro chars
    subst opens
    simp only [List.count_cons, beq_self_eq_true, if_true, Char.reduceBEq, Bool.false_eq_true,
      if_false]
    omega
  · subst shuts
    by_cases inside : 0 < depth
    · rw [and_iff_right inside]
      apply closes_cons_of_counts
      intro chars
      simp only [List.count_cons, beq_self_eq_true, if_true, Char.reduceBEq, Bool.false_eq_true,
        if_false]
      omega
    · -- The brace alone is a prefix that closes too much.
      have early (closes : Closes depth ('}' :: rest)) : 1 ≤ depth := by
        simpa using closes.nested ['}'] (List.prefix_append ['}'] rest)
      exact iff_of_false (fun closes => inside (early closes)) (fun both => inside both.1)
  · apply closes_cons_of_counts
    intro chars
    simp [opens, shuts]

/-! ### What the two ways of splitting do -/

theorem splitCode_cons {reversed chars : List Char} {c : Char}
    (unmarked : ¬ marker <+: c :: chars) :
    splitCode reversed (c :: chars) = splitCode (c :: reversed) chars := by
  rw [splitCode]
  rintro rest rfl rfl
  exact unmarked ⟨rest, rfl⟩

/-- Code without an interpolation is read up to what begins one. -/
theorem splitCode_append {reversed part rest : List Char} (plain : ¬ marker <:+: part) :
    splitCode reversed (part ++ marker ++ rest) =
      (splitInner 0 [] rest).map (flush (part.reverse ++ reversed)) := by
  induction part generalizing reversed with
  | nil => simp [marker, splitCode]
  | cons c part ih =>
    rw [List.infix_cons_iff, not_or] at plain
    rw [List.cons_append, List.cons_append, splitCode_cons, ih plain.2]
    · simp
    · -- The marker would have to begin in the code and end in the one that follows.
      rintro ⟨after, same⟩
      cases part with
      | nil => simp [marker] at same
      | cons d part =>
        simp only [marker, List.cons_append, List.cons.injEq] at same
        apply plain.1
        rw [← same.1, ← same.2.1]
        exact ⟨part, rfl⟩

/-- Code without an interpolation is one piece. -/
theorem splitCode_plain {reversed part : List Char} (plain : ¬ marker <:+: part) :
    splitCode reversed part = some (flush (part.reverse ++ reversed) []) := by
  induction part generalizing reversed with
  | nil => simp [splitCode]
  | cons c part ih =>
    rw [List.infix_cons_iff, not_or] at plain
    rw [splitCode_cons plain.1, ih plain.2]
    simp

/-- An interpolation is read up to the brace that closes it. -/
theorem splitInner_append {depth : Nat} {reversed inner rest : List Char}
    (closes : Closes depth inner) :
    splitInner depth reversed (inner ++ '}' :: rest) =
      (splitCode [] rest).map
        (interpolation (String.ofList (reversed.reverse ++ inner)) :: ·) := by
  induction inner generalizing depth reversed with
  | nil =>
    obtain rfl := closes_nil.mp closes
    simp [splitInner]
  | cons c inner ih =>
    rw [closes_cons] at closes
    rw [List.cons_append, splitInner.eq_def]
    dsimp only
    split_ifs at closes ⊢ with opens shuts
    · rw [ih closes]
      simp
    -- At depth zero this brace would be the one that closes, inside of a balanced text.
    · cases depth with
      | zero => exact absurd closes.1 (Nat.lt_irrefl 0)
      | succ depth =>
        have below : Closes depth inner := closes.2
        simp [ih below]
    · rw [ih closes]
      simp

/-- A balanced interpolation is one piece, behind the code before it. -/
theorem splitCode_interpolation {part rest : List Char} {inner : String}
    (plain : ¬ marker <:+: part) (balanced : Balanced inner) :
    splitCode [] (part ++ ((interpolation inner).text.toList ++ rest)) =
      (splitCode [] rest).map fun later => flush part.reverse (interpolation inner :: later) := by
  have laid : part ++ ((interpolation inner).text.toList ++ rest) =
      part ++ marker ++ (inner.toList ++ '}' :: rest) := by
    simp [Piece.text, marker]
  rw [laid, splitCode_append plain, splitInner_append (balanced_iff.mp balanced), Option.map_map]
  simp [Function.comp_def]

/-- An interpolation that no brace closes is not split. -/
theorem splitInner_eq_none {depth : Nat} {reversed chars : List Char}
    (unclosed : ∀ inner after, Closes depth inner → chars ≠ inner ++ '}' :: after) :
    splitInner depth reversed chars = none := by
  induction chars generalizing depth reversed with
  | nil => rfl
  | cons c chars ih =>
    -- What closes the braces of the rest closes those of the whole, with the character before it.
    have further {next : Nat}
        (more : ∀ inner, Closes next inner → Closes depth (c :: inner)) :
        splitInner next (c :: reversed) chars = none :=
      ih fun inner after closes same => unclosed _ after (more inner closes) (by rw [same]; rfl)
    rw [splitInner.eq_def]
    dsimp only
    split_ifs with opens shuts
    · apply further
      intro inner closes
      rw [closes_cons, if_pos opens]
      exact closes
    · cases depth with
      | zero => exact absurd (by rw [shuts]; rfl) (unclosed [] chars (closes_nil.mpr rfl))
      | succ depth =>
        apply further
        intro inner closes
        rw [closes_cons, if_neg opens, if_pos shuts]
        exact ⟨Nat.succ_pos _, closes⟩
    · apply further
      intro inner closes
      rw [closes_cons, if_neg opens, if_neg shuts]
      exact closes

/-! ### Ways to have pieces -/

theorem length_text_interpolation (inner : String) :
    (interpolation inner).text.length = inner.length + 3 := by
  rw [Piece.text, String.length_append, String.length_append, show "~\x7b".length = 2 from rfl,
    show "\x7d".length = 1 from rfl]
  omega

theorem flush_reverse (part : List Char) (pieces : List Piece) :
    flush part.reverse pieces =
      if part = [] then pieces else code (String.ofList part) :: pieces := by
  simp [flush]

theorem splits_nil : Splits "" [] :=
  ⟨rfl, by simp, .nil, by simp⟩

/-- An interpolation may stand before any pieces. -/
theorem splits_interpolation {inner rest : String} {pieces : List Piece} :
    Splits ((interpolation inner).text ++ rest) (interpolation inner :: pieces) ↔
      Balanced inner ∧ Splits rest pieces := by
  constructor
  · intro splits
    refine ⟨splits.balanced inner (by simp), ?_,
      fun part member => splits.plain part (by simp [member]), splits.apart.tail,
      fun other member => splits.balanced other (by simp [member])⟩
    have whole := splits.whole
    rw [List.map_cons, String.join_cons, ← String.toList_inj] at whole
    rw [← String.toList_inj]
    simpa using whole
  · rintro ⟨balanced, splits⟩
    refine ⟨by simp [splits.whole], fun part member => splits.plain part (by simpa using member),
      ?_, fun other member => ?_⟩
    · exact splits.apart.cons fun _ _ both => both.1
    · rcases List.mem_cons.mp member with same | later
      · cases same
        exact balanced
      · exact splits.balanced other later

/-- Code may stand before pieces that do not begin with code themselves. -/
theorem splits_code {part rest : String} {pieces : List Piece} :
    Splits (part ++ rest) (code part :: pieces) ↔
      (part ≠ "" ∧ ¬ marker <:+: part.toList) ∧ (∀ first ∈ pieces.head?, ¬ first.IsCode) ∧
        Splits rest pieces := by
  constructor
  · intro splits
    refine ⟨splits.plain part (by simp), fun first begins both => ?_, ?_,
      fun other member => splits.plain other (by simp [member]), splits.apart.tail,
      fun inner member => splits.balanced inner (by simp [member])⟩
    · exact (List.isChain_cons.mp splits.apart).1 first begins ⟨trivial, both⟩
    · have whole := splits.whole
      rw [List.map_cons, String.join_cons, Piece.text] at whole
      rw [← String.toList_inj] at whole ⊢
      simpa using whole
  · rintro ⟨plain, apart, splits⟩
    refine ⟨by simp [Piece.text, splits.whole], fun other member => ?_,
      splits.apart.cons fun first begins both => apart first begins both.2,
      fun inner member => splits.balanced inner (by simpa using member)⟩
    rcases List.mem_cons.mp member with same | later
    · cases same
      exact plain
    · exact splits.plain other later

/-- The pieces of a text are found whatever follows it, as long as what follows is resumed in code:
`after` is how the rest of the splitting goes on. -/
theorem splitCode_of_splits {part tail : List Char} {scanned : String} {pieces : List Piece}
    {after : Option (List Piece)}
    (resumes : ∀ part, ¬ marker <:+: part →
      splitCode [] (part ++ tail) = after.map (flush part.reverse))
    (plain : ¬ marker <:+: part) (apart : part = [] ∨ ∀ first ∈ pieces.head?, ¬ first.IsCode)
    (splits : Splits scanned pieces) :
    splitCode [] (part ++ (scanned.toList ++ tail)) =
      after.map fun later => flush part.reverse (pieces ++ later) := by
  obtain rfl := splits.whole
  -- The code that was read last is not a piece yet, so it is part of the statement.
  induction pieces generalizing part with
  | nil => exact resumes part plain
  | cons piece pieces ih =>
    rw [List.map_cons, String.join_cons] at splits ⊢
    rw [String.toList_append, List.append_assoc]
    cases piece with
    | interpolation inner =>
      obtain ⟨balanced, later⟩ := splits_interpolation.mp splits
      have found := ih (by simp [marker]) (Or.inl rfl) later
      rw [List.nil_append] at found
      rw [splitCode_interpolation plain balanced, found, Option.map_map]
      rfl
    | code other =>
      rw [Piece.text] at splits ⊢
      obtain ⟨⟨filled, unmarked⟩, first, later⟩ := splits_code.mp splits
      obtain rfl : part = [] := apart.resolve_right fun unlike => unlike _ rfl trivial
      rw [List.nil_append, ih unmarked (Or.inr first) later]
      simp [flush, filled]

/-! ### Every text has pieces or is unclosed -/

theorem split?_of_splits {text : String} {pieces : List Piece} (splits : Splits text pieces) :
    split? text = some pieces := by
  have resumes (part : List Char) (plain : ¬ marker <:+: part) :
      splitCode [] (part ++ []) = (some []).map (flush part.reverse) := by
    simp [splitCode_plain plain]
  have found := splitCode_of_splits resumes (by simp [marker]) (Or.inl rfl) splits
  simpa [split?, flush] using found

theorem split?_of_unclosed {text : String} (unclosed : Unclosed text) : split? text = none := by
  obtain ⟨scanned, pieces, rest, splits, rfl, lasting⟩ := unclosed
  have lost : splitInner 0 [] rest.toList = none := by
    apply splitInner_eq_none
    intro inner after closes same
    apply lasting (String.ofList inner) (String.ofList after)
    · exact balanced_iff.mpr (by simpa using closes)
    · simp [← String.toList_inj, same]
  have resumes (part : List Char) (plain : ¬ marker <:+: part) :
      splitCode [] (part ++ (marker ++ rest.toList)) = none.map (flush part.reverse) := by
    rw [← List.append_assoc, splitCode_append plain, lost]
    rfl
  have found := splitCode_of_splits resumes (by simp [marker]) (Or.inl rfl) splits
  simpa [split?, marker] using found

/-- Code is cut at the first place where an interpolation begins. -/
theorem exists_leftmost_chars {chars : List Char} (marked : marker <:+: chars) :
    ∃ part rest, chars = part ++ marker ++ rest ∧ ¬ marker <:+: part := by
  induction chars with
  | nil => simp [marker] at marked
  | cons c chars ih =>
    by_cases here : marker <+: c :: chars
    · obtain ⟨rest, same⟩ := here
      exact ⟨[], rest, by simp [same], by simp [marker]⟩
    · obtain ⟨part, rest, rfl, plain⟩ := ih ((List.infix_cons_iff.mp marked).resolve_left here)
      refine ⟨c :: part, rest, rfl, fun earlier => ?_⟩
      rcases List.infix_cons_iff.mp earlier with first | later
      · exact here (first.trans ⟨marker ++ rest, by simp⟩)
      · exact plain later

theorem exists_leftmost {text : String} (marked : marker <:+: text.toList) :
    ∃ part rest, text = part ++ "~\x7b" ++ rest ∧ ¬ marker <:+: part.toList := by
  obtain ⟨part, rest, cut, plain⟩ := exists_leftmost_chars marked
  refine ⟨String.ofList part, String.ofList rest, ?_, by simpa using plain⟩
  rw [← String.toList_inj, cut]
  simp [marker]

/-- Code without an interpolation is put before pieces that begin with none, if there is any. -/
theorem splits_flush {part rest : String} {pieces : List Piece}
    (plain : ¬ marker <:+: part.toList) (apart : ∀ first ∈ pieces.head?, ¬ first.IsCode)
    (splits : Splits rest pieces) :
    Splits (part ++ rest) (flush part.toList.reverse pieces) := by
  rw [flush_reverse]
  split
  next empty =>
    obtain rfl : part = "" := by simpa using empty
    simpa using splits
  next filled =>
    rw [String.ofList_toList, splits_code]
    exact ⟨⟨by simpa using filled, plain⟩, apart, splits⟩

/-- Code without an interpolation is its only piece, if there is any. -/
theorem splits_plain {part : String} (plain : ¬ marker <:+: part.toList) :
    Splits part (flush part.toList.reverse []) := by
  simpa using splits_flush plain (by simp) splits_nil

/-- A round of the splitting: what stands behind a balanced interpolation is split on its own. -/
theorem split?_interpolation {part inner after : String} (plain : ¬ marker <:+: part.toList)
    (balanced : Balanced inner) :
    split? (part ++ ((interpolation inner).text ++ after)) =
      (split? after).map fun later => flush part.toList.reverse (interpolation inner :: later) := by
  rw [split?, String.toList_append, String.toList_append, splitCode_interpolation plain balanced,
    split?]

/-- A round leaves less text to be split. -/
theorem length_after_interpolation (part inner after : String) :
    after.length < (part ++ ((interpolation inner).text ++ after)).length := by
  rw [String.length_append, String.length_append, length_text_interpolation]
  omega

theorem splits_or_unclosed (text : String) : (∃ pieces, Splits text pieces) ∨ Unclosed text := by
  -- Each round cuts off the code before the first marker and the interpolation behind it.
  induction size : text.length using Nat.strong_induction_on generalizing text with
  | _ bound ih =>
    by_cases marked : marker <:+: text.toList
    · obtain ⟨part, rest, rfl, plain⟩ := exists_leftmost marked
      by_cases closed : ∃ inner after, Balanced inner ∧ rest = inner ++ "\x7d" ++ after
      · obtain ⟨inner, after, balanced, rfl⟩ := closed
        have laid : part ++ "~\x7b" ++ (inner ++ "\x7d" ++ after) =
            part ++ ((interpolation inner).text ++ after) := by
          simp [Piece.text, String.append_assoc]
        rw [laid] at size ⊢
        have onward {scanned : String} {pieces : List Piece} (splits : Splits scanned pieces) :
            Splits (part ++ ((interpolation inner).text ++ scanned))
              (flush part.toList.reverse (interpolation inner :: pieces)) :=
          splits_flush plain (by simp [IsCode]) (splits_interpolation.mpr ⟨balanced, splits⟩)
        have shorter := size ▸ length_after_interpolation part inner after
        rcases ih _ shorter after rfl with
          ⟨pieces, splits⟩ | ⟨scanned, pieces, rest, splits, rfl, lasting⟩
        · left
          exact ⟨_, onward splits⟩
        · right
          exact ⟨_, _, rest, onward splits, by simp only [String.append_assoc], lasting⟩
      · right
        exact ⟨part, _, rest, splits_plain plain, rfl,
          fun inner after balanced same => closed ⟨inner, after, balanced, same⟩⟩
    · left
      exact ⟨_, splits_plain marked⟩

theorem split?_eq_some_iff {text : String} {pieces : List Piece} :
    split? text = some pieces ↔ Splits text pieces := by
  constructor
  · intro found
    rcases splits_or_unclosed text with ⟨others, splits⟩ | unclosed
    · rw [split?_of_splits splits, Option.some.injEq] at found
      exact found ▸ splits
    · rw [split?_of_unclosed unclosed] at found
      cases found
  · exact split?_of_splits

theorem split?_eq_none_iff {text : String} : split? text = none ↔ Unclosed text := by
  constructor
  · intro lost
    rcases splits_or_unclosed text with ⟨pieces, splits⟩ | unclosed
    · rw [split?_of_splits splits] at lost
      cases lost
    · exact unclosed
  · exact split?_of_unclosed

theorem Splits.unique {text : String} {pieces others : List Piece} (left : Splits text pieces)
    (right : Splits text others) : pieces = others :=
  Option.some.inj ((split?_of_splits left).symm.trans (split?_of_splits right))

/-- No piece is empty, so there are no more of them than characters. -/
theorem Splits.length_le {text : String} {pieces : List Piece} (splits : Splits text pieces) :
    pieces.length ≤ text.length := by
  obtain rfl := splits.whole
  induction pieces with
  | nil => simp
  | cons piece pieces ih =>
    rw [List.map_cons, String.join_cons] at splits ⊢
    rw [List.length_cons, String.length_append]
    cases piece with
    | interpolation inner =>
      have shorter := ih (splits_interpolation.mp splits).2
      rw [length_text_interpolation]
      omega
    | code part =>
      rw [Piece.text] at splits ⊢
      obtain ⟨⟨filled, -⟩, -, later⟩ := splits_code.mp splits
      have shorter := ih later
      have longer : 0 < part.length := by
        rw [Nat.pos_iff_ne_zero]
        simpa using filled
      omega

/-- Splitting a text loses nothing. It finds exactly the list of pieces that the text has, of which
there is no other, and fails exactly where an interpolation is never closed. Each round of it leaves
less of the text, so that it always ends, with no more pieces than the text has characters. -/
theorem split?_lossless (text : String) :
    (∀ pieces, split? text = some pieces ↔ Splits text pieces) ∧
    (∀ pieces others, Splits text pieces → Splits text others → pieces = others) ∧
    (split? text = none ↔ Unclosed text) ∧
    (∀ pieces, split? text = some pieces → pieces.length ≤ text.length) ∧
    (∀ part inner after, ¬ marker <:+: part.toList → Balanced inner →
      text = part ++ ((interpolation inner).text ++ after) →
      after.length < text.length ∧
      split? text = (split? after).map fun later =>
        flush part.toList.reverse (interpolation inner :: later)) := by
  refine ⟨fun _ => split?_eq_some_iff, fun _ _ => Splits.unique, split?_eq_none_iff,
    fun _ found => (split?_eq_some_iff.mp found).length_le, ?_⟩
  rintro part inner after plain balanced rfl
  exact ⟨length_after_interpolation part inner after, split?_interpolation plain balanced⟩

end LispScope.Piece
