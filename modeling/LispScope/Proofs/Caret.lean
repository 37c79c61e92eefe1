import LispScope.Diagnostic.Report
import LispScope.Proofs.Cutting

/-!
# What a caret points at

Main statement: `readAll_points`. A report on any form that was read from a text shows the line of
the text in which the form begins, with the caret right under the first character of the form.

Places count lines and columns one character at a time, while the lines of a text are cut off at line
feeds and lose a carriage return at their end. The two counts agree at every place
(`linesFrom_append`); the carriage return that a line loses is no character of a form, since no token
begins with one (`Spells.exists_solid`). The caret keeps to the column because no character is
displayed narrower than one column, and the tab that is displayed wider is cut off at the column.
-/
namespace LispScope

/-! ### The line around a place -/

namespace Text

/-- A character stands at a byte offset of a text. -/
def StandsAt (text : String) (offset : Nat) (c : Char) : Prop :=
  ∃ before after, text = before ++ String.singleton c ++ after ∧ offset = before.utf8ByteSize

/-- Whether a character can be lost to the ending of a line. -/
def endsLine (c : Char) : Bool := c = '\n' || c = '\r'

variable {reversed : List Char} {c : Char} {place : Source.Place}

theorem linesFrom_cons (inside : c ≠ '\n') (rest : List Char) :
    linesFrom reversed (c :: rest) = linesFrom (c :: reversed) rest := by
  rw [linesFrom]
  exact inside

/-- Up to a place the lines are cut off as the place counts them, and what has been read of the current
line is as long as its column says. -/
theorem linesFrom_append (counted : place.col = reversed.length + 1) (lead : List Char) :
    ∃ before current, (place.past lead).line = place.line + before.length ∧
      (place.past lead).col = current.length + 1 ∧
      ∀ rest, linesFrom reversed (lead ++ rest) = before ++ linesFrom current rest := by
  induction lead generalizing place reversed with
  | nil => exact ⟨[], reversed, rfl, counted, fun _ => rfl⟩
  | cons c lead ih =>
    rw [Source.Place.past_cons]
    by_cases feed : c = '\n'
    · subst feed
      have turned : (place.after '\n').line = place.line + 1 := by simp [Source.Place.after]
      have fresh : (place.after '\n').col = ([] : List Char).length + 1 := by
        simp [Source.Place.after]
      obtain ⟨before, current, line, col, splits⟩ := ih fresh
      refine ⟨String.ofList (dropReturn reversed).reverse :: before, current, ?_, col, fun rest => ?_⟩
      · rw [line, turned, List.length_cons]
        omega
      · rw [List.cons_append, linesFrom, splits]
        rfl
    · have kept : (place.after c).line = place.line := by simp [Source.Place.after, feed]
      have longer : (place.after c).col = (c :: reversed).length + 1 := by
        simp [Source.Place.after, feed, counted]
      obtain ⟨before, current, line, col, splits⟩ := ih longer
      refine ⟨before, current, by rw [line, kept], col, fun rest => ?_⟩
      rw [List.cons_append, linesFrom_cons feed, splits]

theorem dropReturn_append (solid : endsLine c = false) (later current : List Char) :
    ∃ kept, dropReturn (later ++ c :: current) = kept ++ c :: current := by
  cases later with
  | nil =>
    refine ⟨[], ?_⟩
    rw [List.nil_append, dropReturn]
    rintro rest same
    obtain ⟨rfl, -⟩ := List.cons.inj same
    simp [endsLine] at solid
  | cons last later =>
    rw [List.cons_append, dropReturn.eq_def]
    split
    · next rest same =>
      obtain ⟨-, rfl⟩ := List.cons.inj same
      exact ⟨later, rfl⟩
    · exact ⟨last :: later, rfl⟩

/-- A line keeps each of its characters that no ending takes, with all that stands before it. -/
theorem exists_linesFrom (solid : endsLine c = false) (later current rest : List Char) :
    ∃ line others, linesFrom (later ++ c :: current) rest = line :: others ∧
      current.reverse ++ [c] <+: line.toList := by
  induction rest generalizing later with
  | nil =>
    refine ⟨String.ofList (later ++ c :: current).reverse, [], by simp [linesFrom], ?_⟩
    exact ⟨later.reverse, by simp⟩
  | cons d rest ih =>
    by_cases feed : d = '\n'
    · subst feed
      obtain ⟨kept, same⟩ := dropReturn_append solid later current
      refine ⟨_, _, by rw [linesFrom, same], kept.reverse, ?_⟩
      simp
    · rw [linesFrom_cons feed]
      exact ih (d :: later)

/-- The line with the number of a place has the character of the place in its column. -/
theorem exists_line (solid : endsLine c = false) (lead rest : List Char) :
    ∃ line, line? (String.ofList (lead ++ c :: rest)) (Source.Place.origin.past lead).line = some line ∧
      line.toList[(Source.Place.origin.past lead).col - 1]? = some c := by
  have inside : c ≠ '\n' := by
    rintro rfl
    simp [endsLine] at solid
  have atOrigin : Source.Place.origin.col = ([] : List Char).length + 1 := rfl
  obtain ⟨before, current, number, col, splits⟩ := linesFrom_append atOrigin lead
  obtain ⟨line, others, found, tail, content⟩ := exists_linesFrom solid [] current rest
  refine ⟨line, ?_, ?_⟩
  · rw [number, Nat.add_comm]
    change (lines _)[before.length]? = some line
    rw [lines, String.toList_ofList, splits, linesFrom_cons inside, ← List.nil_append (c :: current),
      found]
    simp
  · rw [col, ← content]
    simp

end Text

/-! ### The caret -/

namespace Report

theorem one_le_width (c : Char) : 1 ≤ width c := by
  unfold width
  split <;> omega

/-- A line is displayed at least as wide as it has characters. -/
theorem le_widthUpTo {limit reached : Nat} {line : List Char} (long : limit ≤ reached + line.length) :
    limit ≤ widthUpTo limit reached line := by
  induction line generalizing reached with
  | nil => simpa [widthUpTo] using long
  | cons c line ih =>
    rw [widthUpTo]
    split
    · assumption
    · apply ih
      have wide := one_le_width c
      rw [List.length_cons] at long
      omega

theorem caret_eq {line : String} {col : Nat} (long : col - 1 ≤ line.toList.length) :
    caret line col = String.ofList (List.replicate (col - 1) ' ') ++ "^" := by
  have reached : col - 1 ≤ widthUpTo (col - 1) 0 line.toList := le_widthUpTo (by omega)
  rw [caret, min_eq_right reached]

theorem context_eq {text line : String} {span : Span} (placed : span.line ≠ 0)
    (found : Text.line? text span.line = some line) (long : span.col - 1 ≤ line.toList.length) :
    context text span =
      toString span.line ++ " | " ++ line ++ "\n" ++
      String.ofList (List.replicate (toString span.line).length ' ') ++ " | " ++
      String.ofList (List.replicate (span.col - 1) ' ') ++ "^" ++ "\n" := by
  have somewhere : span.isSynthetic = false := by simpa [Span.isSynthetic] using placed
  rw [context, somewhere, if_neg Bool.false_ne_true, found]
  simp only [caret_eq long, String.append_assoc]

end Report

/-! ### Forms begin with a character of their line -/

namespace Source

/-- No token begins with a character that the ending of a line takes. -/
theorem Spells.exists_solid {lexeme : Lexeme} {spelled : List Char} {isOpen : Bool}
    (spells : Spells lexeme spelled isOpen) :
    ∃ c rest, spelled = c :: rest ∧ Text.endsLine c = false := by
  cases spells with
  | opening opener =>
    rcases opener with shape | _
    · cases shape <;> exact ⟨_, _, rfl, rfl⟩
    · exact ⟨_, _, rfl, rfl⟩
  | closing closes => rcases closes with rfl | rfl | rfl <;> exact ⟨_, _, rfl, rfl⟩
  | @word first rest _ begins _ _ =>
    refine ⟨first, rest, rfl, ?_⟩
    by_contra ends
    simp only [Text.endsLine, Bool.not_eq_false, Bool.or_eq_true, decide_eq_true_eq] at ends
    rcases ends with rfl | rfl <;> exact absurd begins (by decide)
  | quote | string _ | delimiter _ | char _ _ _ => exact ⟨_, _, rfl, rfl⟩

/-- Every form that stands in some tokens begins where one of them does. -/
theorem exists_first {form : Form} {tokens : List Token} (stands : form.StandsIn tokens) :
    ∃ before first after, tokens = before ++ first :: after ∧
      form.span = { first.span with stop := form.span.stop } := by
  rcases stands with ⟨before, own, after, rfl, made⟩ | ⟨before, mark, after, rfl, rfl⟩
  · obtain ⟨first, last, starts, -, span⟩ := made.span_eq
    obtain ⟨others, rfl⟩ := List.head?_eq_some_iff.mp starts
    exact ⟨before, first, others ++ after, by simp, by rw [span]⟩
  · exact ⟨before, _, after, rfl, rfl⟩

/-- Every form of a text that is read stands in a line of the text, at the character at its column, and
its report shows this line with the caret under that character. -/
theorem readAll_points {text : String} {forms : List Form} (reads : readAll text = .ok forms) :
    ∀ form ∈ forms, ∀ sub : Form, sub.Within form →
      ∃ line c, Text.line? text sub.span.line = some line ∧
        Text.StandsAt text sub.span.start c ∧
        1 ≤ sub.span.col ∧ line.toList[sub.span.col - 1]? = some c ∧
        Report.context text sub.span =
          toString sub.span.line ++ " | " ++ line ++ "\n" ++
          String.ofList (List.replicate (toString sub.span.line).length ' ') ++ " | " ++
          String.ofList (List.replicate (sub.span.col - 1) ' ') ++ "^" ++ "\n" := by
  intro form member sub within
  obtain ⟨tokens, scans, assembles⟩ := readAll_eq_iff.mp reads
  -- The form begins with a token, and the token with a character that its line keeps.
  obtain ⟨before, first, after, rfl, begins⟩ := exists_first (assembles.stands form member sub within)
  obtain ⟨lead, spelled, isOpen, remaining, whole, spells, placed, -⟩ := scans.exists_spelled
  obtain ⟨c, rest, rfl, solid⟩ := spells.exists_solid
  have written : text = String.ofList (lead ++ c :: (rest ++ remaining)) := by
    rw [← String.toList_inj, whole, String.toList_ofList, List.cons_append]
  have start : sub.span.start = (String.ofList lead).utf8ByteSize := by
    rw [begins, placed, ← Place.offset_past_origin]
    rfl
  have row : sub.span.line = (Place.origin.past lead).line := by rw [begins, placed]; rfl
  have col : sub.span.col = (Place.origin.past lead).col := by rw [begins, placed]; rfl
  have counted : (Place.origin.past lead).IsCounted := Place.IsCounted.past ⟨le_refl _, le_refl _⟩ lead
  obtain ⟨line, found, stands⟩ := Text.exists_line solid lead (rest ++ remaining)
  rw [← written, ← row] at found
  rw [← col] at stands
  obtain ⟨long, -⟩ := List.getElem?_eq_some_iff.mp stands
  refine ⟨line, c, found, ⟨String.ofList lead, String.ofList (rest ++ remaining), ?_, start⟩, ?_,
    stands, ?_⟩
  · rw [written, ← String.toList_inj]
    simp
  · rw [col]
    exact counted.2
  · refine Report.context_eq ?_ found long.le
    rw [row]
    exact Nat.ne_of_gt counted.1

/-- A text with a remark, a string over two lines, a tab, a wide character, and carriage returns of
both kinds. -/
def mixedText : String := "; é\r\n\x22a\nb\x22\t(é\rx)\r\n"

/-- What is read from it: a string, and a list of two symbols. -/
def mixedForms : List Form :=
  [.atom (.string "a\nb") ⟨6, 11, 2, 1, none⟩,
    .list [.symbol (.simple "é") ⟨13, 15, 3, 5, none⟩, .symbol (.simple "x") ⟨16, 17, 3, 7, none⟩]
      ⟨12, 18, 3, 4, none⟩]

/-- The caret under `x` stands in the seventh column, behind a tab and a lone carriage return. -/
theorem mixedText_points :
    readAll mixedText = .ok mixedForms ∧ Text.StandsAt mixedText 16 'x' ∧
      Report.context mixedText ⟨16, 17, 3, 7, none⟩ =
        "3 | b\x22\t(é\rx)\n  |       ^\n" := by
  have reads : readAll mixedText = .ok mixedForms := rfl
  refine ⟨reads, ?_⟩
  obtain ⟨line, c, found, stands, -, inLine, shown⟩ := readAll_points reads
    _ (List.mem_cons_of_mem _ (List.mem_singleton_self _))
    (.symbol (.simple "x") ⟨16, 17, 3, 7, none⟩)
    (.inside (List.mem_cons_of_mem _ (List.mem_singleton_self _)) .self)
  obtain rfl : "b\x22\t(é\rx)" = line := Option.some.inj found
  obtain rfl : 'x' = c := Option.some.inj inLine
  exact ⟨stands, shown⟩

end Source

end LispScope
