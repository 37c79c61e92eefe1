import LispScope.Proofs.Cutting
import LispScope.Proofs.Equality

/-!
# What is printed reads back

Main statement: `readOne_text`. Whatever is read from a text and holds no float is printed as a text
that is read as one form again, and as the same one if and only if all strings inside are plain. A
string with other characters is printed with escapes that the scanner does not know.

Each atom has a spelling, and the printed atom is a spelling of the atom that is read back. Around the
atoms only brackets, blanks and commas are printed, before each of which a word ends, so the tokens of
the pieces are the tokens of the whole.
-/
namespace LispScope

/-! ### Printed strings -/

namespace Text

/-- Characters that are the same after being printed and read: printable ASCII characters, line feed
and tab. -/
def isPlain (c : Char) : Bool := (0x20 ≤ c.toNat && c.toNat ≤ 0x7e) || c = '\n' || c = '\t'

/-- What is read for a printed character. The scanner takes the letter after a backslash for itself,
except for those of line feed and tab. -/
def rereadChar (c : Char) : List Char :=
  if isPlain c then [c]
  else if c = '\r' then ['r']
  else ("u\x7b" ++ hexDigits c.toNat ++ "\x7d").toList

/-- What is read for a printed text. -/
def reread (text : String) : String := String.ofList (text.toList.flatMap rereadChar)

/-- Whether a character stands for itself between the marks of a string. -/
def isUnmarked (c : Char) : Bool := c ≠ '\x22' && c ≠ '\\'

theorem all_isPlain_rereadChar (c : Char) : (rereadChar c).all isPlain = true := by
  have digits : (hexDigits c.toNat).toList.all isPlain = true := all_hexDigits (by decide) _
  unfold rereadChar
  split
  next plain => simpa using plain
  next =>
    split
    · decide
    · rw [String.toList_append, String.toList_append, List.all_append, List.all_append, digits]
      decide

theorem rereadChar_of_isPlain {c : Char} (plain : isPlain c = true) : rereadChar c = [c] := if_pos plain

/-- A text is read back if all its characters are plain, and no other is, for only plain characters
are read. -/
theorem reread_eq_iff {text : String} : reread text = text ↔ ∀ c ∈ text.toList, isPlain c = true := by
  constructor
  · intro same c member
    rw [← same, reread, String.toList_ofList] at member
    obtain ⟨origin, _, member⟩ := List.mem_flatMap.mp member
    exact List.all_eq_true.mp (all_isPlain_rereadChar origin) c member
  · intro plain
    have kept : text.toList.flatMap rereadChar = text.toList.flatMap fun c => [c] :=
      List.flatMap_congr fun c member => rereadChar_of_isPlain (plain c member)
    rw [reread, kept, List.flatMap_singleton', String.ofList_toList]

end Text

namespace Source

open Text

namespace Quotes

theorem append {body text body' text' : List Char} (first : Quotes body text)
    (second : Quotes body' text') : Quotes (body ++ body') (text ++ text') := by
  induction first with
  | nil => exact second
  | plain unmarked _ ih => exact .plain unmarked ih
  | escaped _ ih => exact .escaped ih

theorem of_isUnmarked {text : List Char} (unmarked : text.all isUnmarked = true) : Quotes text text := by
  induction text with
  | nil => exact .nil
  | cons c text ih =>
    simp only [List.all_cons, Bool.and_eq_true] at unmarked
    exact .plain (by simpa [isUnmarked] using unmarked.1) (ih unmarked.2)

theorem escapeChar (c : Char) : Quotes (escapeChar c).toList (rereadChar c) := by
  unfold Text.escapeChar
  split
  iterate 6 exact .escaped .nil
  next tab ret feed _ mark backslash =>
    split
    next printable =>
      have plain : isPlain c = true := by
        rw [isPlain, printable]
        rfl
      rw [rereadChar_of_isPlain plain, Char.toString, String.toList_singleton]
      exact .plain ⟨mark, backslash⟩ .nil
    next unprintable =>
      have special : ¬ isPlain c = true := by
        simp only [isPlain, Bool.or_eq_true, decide_eq_true_eq]
        rintro ((printable | same) | same)
        exacts [unprintable printable, feed same, tab same]
      have digits : Quotes (hexDigits c.toNat).toList (hexDigits c.toNat).toList :=
        of_isUnmarked (all_hexDigits (by decide) _)
      have opening : Quotes "\\u\x7b".toList "u\x7b".toList := .escaped (.plain (by decide) .nil)
      have closing : Quotes "\x7d".toList "\x7d".toList := .plain (by decide) .nil
      rw [rereadChar, if_neg special, if_neg ret]
      simp only [String.toList_append]
      exact (opening.append digits).append closing

theorem escape (text : String) : Quotes (escape text).toList (reread text).toList := by
  rw [Text.escape, reread, String.toList_join, String.toList_ofList]
  induction text.toList with
  | nil => exact .nil
  | cons c text ih => exact (escapeChar c).append ih

end Quotes

/-! ### Printed atoms -/

end Source

/-- What is read for a printed atom. -/
def Atom.reread : Atom → Atom
  | .string value => .string (Text.reread value)
  | value => value

theorem Symbol.text_parse (text : String) : (parse text).text = text := by
  unfold parse
  dsimp only
  split
  · rfl
  next c name rest =>
    split
    · rfl
    · have slash : c = '/' := by
        have stops := List.head?_dropWhile_not (· ≠ '/') text.toList
        rw [rest] at stops
        simpa using stops
      have whole := @List.takeWhile_append_dropWhile _ (· ≠ '/') text.toList
      rw [rest, slash] at whole
      rw [Symbol.qualified, Symbol.text, ← String.toList_inj]
      simpa using whole

namespace Source

theorem charOfWord_singleton (c : Char) : charOfWord [c] = .ok c := by
  have short (name : String) (long : name.length ≠ 1) : String.ofList [c] ≠ name := by
    rintro rfl
    simp at long
  unfold charOfWord
  rw [if_neg (short _ (by decide)), if_neg (short _ (by decide)), if_neg (short _ (by decide))]

/-- Every character is read back for its printed form. -/
theorem spells_char (c : Char) :
    ∃ isOpen, Spells (.atom (.char c)) (Atom.char c).text.toList isOpen := by
  have printed : (Atom.char c).text.toList = ['\\', c] := by simp [Atom.text]
  rw [printed]
  cases delimits : isDelimiter c with
  | true => exact ⟨false, .delimiter delimits⟩
  | false => exact ⟨true, .char delimits nofun (charOfWord_singleton c)⟩

/-- The atom of a word is a number, or it is printed as the word and read back. -/
theorem atomOfWord_cases {word : List Char} {value : Atom} (reads : atomOfWord word = .ok value) :
    (∃ number, value = .int number) ∨ (∃ number, value = .float number) ∨
      value.text.toList = word ∧ value.reread = value := by
  have named {text : String} (same : String.ofList word = text) : text.toList = word := by
    rw [← same, String.toList_ofList]
  unfold atomOfWord at reads
  split at reads
  · cases reads
  · obtain rfl := Except.ok.inj reads
    refine .inr (.inr ⟨?_, rfl⟩)
    simp [Atom.text, Symbol.text_parse]
  dsimp only at reads
  -- The three constants.
  iterate 3
    split at reads
    next same =>
      obtain rfl := Except.ok.inj reads
      exact .inr (.inr ⟨named same, rfl⟩)
  split at reads
  · exact .inl ⟨_, (Except.ok.inj reads).symm⟩
  split at reads
  · exact .inr (.inl ⟨_, (Except.ok.inj reads).symm⟩)
  · obtain rfl := Except.ok.inj reads
    refine .inr (.inr ⟨?_, rfl⟩)
    rw [Atom.text, Symbol.text_parse, String.toList_ofList]

/-- The digits of a number are read as the number. -/
theorem natural?_toDigits (n : Nat) : Numeral.natural? (Nat.toDigits 10 n) = some n := by
  have digits : (Nat.toDigits 10 n).all Char.isDigit = true :=
    List.all_eq_true.mpr fun c member => Nat.isDigit_of_mem_toDigits (by decide) (by decide) member
  have inhabited : (Nat.toDigits 10 n).isEmpty = false := by simp [Nat.toDigits_ne_nil]
  simp [Numeral.natural?, digits, inhabited, Nat.ofDigitChars_toDigits]

theorem integer?_of_sign {text digits : List Char} {negative : Bool} {size : Nat} {value : Int64}
    (signed : Numeral.sign text = (negative, digits)) (sized : Numeral.natural? digits = some size)
    (same : value.toInt = if negative then -(size : Int) else size) :
    Numeral.integer? text = some value := by
  have bounds : Int64.minValue.toInt ≤ value.toInt ∧ value.toInt ≤ Int64.maxValue.toInt :=
    ⟨value.le_toInt, value.toInt_le⟩
  rw [same] at bounds
  simp only [Numeral.integer?, signed, sized, guard, if_pos bounds, Option.pure_def,
    Option.bind_eq_bind, Option.bind_some]
  rw [← same, Int64.ofInt_toInt]

theorem atomOfWord_of_integer? {first : Char} {rest : List Char} {value : Int64}
    (begins : beginsNumeral first = true) (reads : Numeral.integer? (first :: rest) = some value) :
    atomOfWord (first :: rest) = .ok (.int value) := by
  have other {c : Char} {name : List Char} (differs : beginsNumeral c = false) :
      String.ofList (first :: rest) ≠ String.ofList (c :: name) := by
    intro same
    obtain ⟨rfl, _⟩ := List.cons.inj (String.ofList_injective same)
    rw [begins] at differs
    cases differs
  unfold atomOfWord
  split
  next same => cases same
  next same =>
    obtain ⟨rfl, _⟩ := List.cons.inj same
    cases begins
  next first' rest' _ same =>
    obtain ⟨rfl, rfl⟩ := List.cons.inj same
    dsimp only
    rw [if_neg (@other 'n' ['i', 'l'] rfl), if_neg (@other 't' ['r', 'u', 'e'] rfl),
      if_neg (@other 'f' ['a', 'l', 's', 'e'] rfl), reads]

/-- A digit is a character with one of ten numbers. -/
theorem exists_digit {c : Char} (digit : c.isDigit = true) : ∃ d < 10, c = Char.ofNat (48 + d) := by
  simp only [Char.isDigit, Bool.and_eq_true, decide_eq_true_eq] at digit
  have above : 48 ≤ c.toNat := digit.1
  have below : c.toNat ≤ 57 := digit.2
  refine ⟨c.toNat - 48, by omega, ?_⟩
  rw [Nat.add_sub_cancel' above, Char.ofNat_toNat]

theorem continues_of_isDigit {c : Char} (digit : c.isDigit = true) (rest : List Char) :
    isDelimiter c = false ∧ beginsWord c = true ∧ Numeral.sign (c :: rest) = (false, c :: rest) := by
  obtain ⟨d, small, rfl⟩ := exists_digit digit
  interval_cases d <;> exact ⟨by decide, by decide, rfl⟩

/-- Every integer is read back for its printed form. -/
theorem spells_int (value : Int64) : Spells (.atom (.int value)) (Atom.int value).text.toList true := by
  have printed : (Atom.int value).text = value.toInt.repr := Int.toString_eq_repr
  have digits (n : Nat) : ∀ c ∈ Nat.toDigits 10 n, c.isDigit = true :=
    fun c member => Nat.isDigit_of_mem_toDigits (by decide) (by decide) member
  have unbroken (n : Nat) : IsUnbroken (Nat.toDigits 10 n) :=
    fun c member => (continues_of_isDigit (digits n c member) []).1
  rw [printed, Int.repr_eq_if]
  split
  next positive =>
    have sized := natural?_toDigits value.toInt.toNat
    have unbroken := unbroken value.toInt.toNat
    have digits := digits value.toInt.toNat
    rw [Nat.toList_repr]
    obtain ⟨first, rest, split⟩ := List.exists_cons_of_ne_nil (@Nat.toDigits_ne_nil value.toInt.toNat 10)
    rw [split] at sized unbroken digits ⊢
    have digit := digits first (List.mem_cons_self ..)
    obtain ⟨_, begins, signed⟩ := continues_of_isDigit digit rest
    refine .word begins (fun c member => unbroken c (List.mem_cons_of_mem _ member)) ?_
    apply atomOfWord_of_integer? (by simp [beginsNumeral, digit])
    exact integer?_of_sign signed sized (Int.toNat_of_nonneg positive).symm
  next negative =>
    have sized := natural?_toDigits (-value.toInt).toNat
    rw [String.toList_append, Nat.toList_repr]
    refine .word (by decide) (unbroken _) ?_
    apply atomOfWord_of_integer? (by decide)
    exact integer?_of_sign rfl sized (by rw [if_pos rfl]; omega)

/-- A printed atom is a spelling of the atom that is read for it. -/
theorem Spells.printed {value : Atom} {spelled : List Char} {isOpen : Bool}
    (spells : Spells (.atom value) spelled isOpen) (exact : ∀ number, value ≠ .float number) :
    ∃ isOpen, Spells (.atom value.reread) value.text.toList isOpen := by
  cases spells with
  | word begins unbroken reads =>
    rcases atomOfWord_cases reads with ⟨number, rfl⟩ | ⟨number, rfl⟩ | ⟨same, kept⟩
    · exact ⟨true, spells_int number⟩
    · exact absurd rfl (exact number)
    · rw [same, kept]
      exact ⟨true, .word begins unbroken reads⟩
  | @string _ text _ =>
    have quotes := Spells.string (Quotes.escape (String.ofList text))
    rw [String.ofList_toList] at quotes
    refine ⟨false, ?_⟩
    simpa [Atom.text, Text.quote, Atom.reread] using quotes
  | delimiter _ => exact spells_char _
  | char _ _ _ => exact spells_char _

end Source

/-! ### Printed data -/

namespace Datum

/-- An atom stands somewhere in a datum. -/
inductive Contains (value : Atom) : Datum → Prop
  | here : Contains value (.atom value)
  | item {shape : Shape} {items : List Datum} {item : Datum} (member : item ∈ items)
      (inside : Contains value item) : Contains value (.seq shape items)
  | key {entries : List (Datum × Datum)} {entry : Datum × Datum} (member : entry ∈ entries)
      (inside : Contains value entry.1) : Contains value (.map entries)
  | value {entries : List (Datum × Datum)} {entry : Datum × Datum} (member : entry ∈ entries)
      (inside : Contains value entry.2) : Contains value (.map entries)

/-- No float stands in the datum. -/
def IsExact (datum : Datum) : Prop := ∀ number, ¬ datum.Contains (.float number)

/-- All strings in the datum are plain. -/
def IsPlain (datum : Datum) : Prop :=
  ∀ text, datum.Contains (.string text) → ∀ c ∈ text.toList, Text.isPlain c = true

mutual

/-- What is read for a printed datum. -/
def reread : Datum → Datum
  | atom value => .atom value.reread
  | seq shape items => .seq shape (rereadItems items)
  | map entries => .map (rereadEntries entries)
termination_by structural datum => datum

def rereadItems : List Datum → List Datum
  | [] => []
  | item :: items => item.reread :: rereadItems items
termination_by structural items => items

def rereadEntries : List (Datum × Datum) → List (Datum × Datum)
  | [] => []
  | (key, value) :: entries => (key.reread, value.reread) :: rereadEntries entries
termination_by structural entries => entries

end

theorem rereadItems_eq_map (items : List Datum) : rereadItems items = items.map reread := by
  induction items with
  | nil => rfl
  | cons item items ih => rw [rereadItems, ih, List.map_cons]

theorem rereadEntries_eq_map (entries : List (Datum × Datum)) :
    rereadEntries entries = entries.map (Prod.map reread reread) := by
  induction entries with
  | nil => rfl
  | cons entry entries ih =>
    obtain ⟨key, value⟩ := entry
    rw [rereadEntries, ih]
    rfl

theorem map_eq_self_iff {α : Type} {f : α → α} {items : List α} :
    items.map f = items ↔ ∀ item ∈ items, f item = item := by
  conv_lhs => rhs; rw [← List.map_id items]
  exact List.map_inj_left

/-- A datum is read back if all atoms in it are. -/
theorem reread_eq_iff_atoms {datum : Datum} :
    datum.reread = datum ↔ ∀ value, datum.Contains value → value.reread = value := by
  induction datum using Datum.induction with
  | atom value =>
    constructor
    · rintro same _ ⟨⟩
      exact Datum.atom.inj same
    · intro each
      exact congrArg _ (each value .here)
  | seq shape items ih =>
    simp only [reread, rereadItems_eq_map, seq.injEq, true_and, map_eq_self_iff]
    constructor
    · rintro each value (_ | ⟨member, inside⟩)
      exact (ih _ member).mp (each _ member) value inside
    · intro each item member
      exact (ih item member).mpr fun value inside => each value (.item member inside)
  | map entries ih =>
    simp only [reread, rereadEntries_eq_map, map.injEq, map_eq_self_iff, Prod.ext_iff, Prod.map]
    constructor
    · rintro each value (_ | _ | ⟨member, inside⟩ | ⟨member, inside⟩)
      · exact (ih _ member).1.mp (each _ member).1 value inside
      · exact (ih _ member).2.mp (each _ member).2 value inside
    · intro each entry member
      constructor
      · exact (ih entry member).1.mpr fun value inside => each value (.key member inside)
      · exact (ih entry member).2.mpr fun value inside => each value (.value member inside)

theorem reread_eq_iff {datum : Datum} : datum.reread = datum ↔ datum.IsPlain := by
  rw [reread_eq_iff_atoms]
  constructor
  · intro each text inside
    exact Text.reread_eq_iff.mp (Atom.string.inj (each _ inside))
  · intro plain value inside
    cases value with
    | string text => exact congrArg _ (Text.reread_eq_iff.mpr (plain text inside))
    | _ => rfl

end Datum

theorem Form.exists_within_of_contains {value : Atom} {datum : Datum} (contains : datum.Contains value)
    {form : Form} (same : form.datum = datum) : ∃ span, (Form.atom value span).Within form := by
  induction contains generalizing form with
  | here =>
    cases form with
    | atom _ span =>
      obtain rfl := Datum.atom.inj same
      exact ⟨span, .self⟩
    | seq => cases same
    | map => cases same
  | item member _ ih =>
    cases form with
    | atom => cases same
    | seq shape items span =>
      obtain ⟨rfl, rfl⟩ := Datum.seq.inj same
      rw [data_eq_map] at member
      obtain ⟨item, among, rfl⟩ := List.mem_map.mp member
      obtain ⟨span, within⟩ := ih rfl
      exact ⟨span, .inside among within⟩
    | map => cases same
  | key member _ ih | value member _ ih =>
    cases form with
    | atom => cases same
    | seq => cases same
    | map entries span =>
      obtain rfl := Datum.map.inj same
      rw [entryData_eq_map] at member
      obtain ⟨entry, among, rfl⟩ := List.mem_map.mp member
      obtain ⟨span, within⟩ := ih rfl
      exact ⟨span, .inside (List.mem_flatMap.mpr ⟨entry, among, by simp⟩) within⟩

namespace Source

/-- Items with the data of keys and values in turn are made into a map. -/
theorem close_map {entries : List (Datum × Datum)} {items : List Form}
    (same : items.map Form.datum = entries.flatMap fun entry => [entry.1, entry.2]) (span : Span) :
    ∃ form, Assembly.close .map items span = .ok form ∧ form.datum = .map entries := by
  have paired : ∃ pairs, Form.pairs? items = some pairs ∧ Form.entryData pairs = entries := by
    induction entries generalizing items with
    | nil =>
      obtain rfl := List.map_eq_nil_iff.mp same
      exact ⟨[], rfl, rfl⟩
    | cons entry entries ih =>
      rw [List.flatMap_cons] at same
      obtain ⟨key, rest, rfl, first, same⟩ := List.map_eq_cons_iff.mp same
      obtain ⟨value, rest, rfl, second, same⟩ := List.map_eq_cons_iff.mp same
      obtain ⟨pairs, found, rfl⟩ := ih same
      refine ⟨(key, value) :: pairs, ?_, ?_⟩
      · rw [Form.pairs?, found]
        rfl
      · rw [Form.entryData, first, second]
  obtain ⟨pairs, found, rfl⟩ := paired
  refine ⟨.map pairs span, ?_, rfl⟩
  rw [Assembly.close, found]

/-- A text, followed by anything before which a word ends, makes up forms with the given data. -/
def Prints (text : List Char) (data : List Datum) : Prop :=
  ∀ place rest more, EndsWord rest → Scans (Place.past place text) rest more →
    ∃ tokens forms, Scans place (text ++ rest) (tokens ++ more) ∧ Assembles tokens forms ∧
      forms.map Form.datum = data

namespace Prints

variable {text other : List Char} {data others : List Datum}

theorem nil : Prints [] [] := fun _ _ _ _ scans => ⟨[], [], scans, .nil, rfl⟩

theorem atom {value : Atom} {isOpen : Bool} (spells : Spells (.atom value) text isOpen) :
    Prints text [.atom value] := by
  intro place rest more ends scans
  exact ⟨[_], [_], .token spells (fun _ => ends) scans, .atom .nil, rfl⟩

theorem blank {c : Char} (blank : (Text.isBlank c || c = ',') = true) (prints : Prints text data) :
    Prints (c :: text) data := by
  intro place rest more ends scans
  obtain ⟨tokens, forms, scans, assembles, same⟩ := prints (place.after c) rest more ends scans
  exact ⟨tokens, forms, .blank blank scans, assembles, same⟩

theorem append (first : Prints text data) (second : Prints other others) (ends : EndsWord other) :
    Prints (text ++ other) (data ++ others) := by
  intro place rest more ends' scans
  rw [Place.past_append] at scans
  obtain ⟨tokens', forms', scans', assembles', same'⟩ := second _ rest more ends' scans
  -- Nothing may stand in the second text, and then the first one is followed by the rest.
  have between : EndsWord (other ++ rest) := by
    cases other with
    | nil => exact ends'
    | cons c other => exact ends
  obtain ⟨tokens, forms, scans, assembles, same⟩ := first place _ _ between scans'
  refine ⟨tokens ++ tokens', forms ++ forms', by simpa using scans, assembles.append assembles', ?_⟩
  rw [List.map_append, same, same']

/-- What is closed by its bracket. The two brackets and what stands between them are tokens of their
own, since a word ends before the second one. -/
theorem collection {opener : Opener} {datum : Datum} (inside : Prints text data)
    (closes : ∀ items : List Form, items.map Form.datum = data → ∀ span, ∃ form,
      Assembly.close opener items span = .ok form ∧ form.datum = datum) :
    Prints (opener.opening ++ (text ++ [opener.closer])) [datum] := by
  intro place rest more ends scans
  have bracket : opener.closer = ')' ∨ opener.closer = ']' ∨ opener.closer = '\x7d' := by
    rcases opener with (_ | _ | _) | _ <;> decide
  have delimits : isDelimiter opener.closer = true := by
    rcases bracket with same | same | same <;> rw [same] <;> decide
  rw [Place.past_append, Place.past_append] at scans
  have closed := Scans.token (.closing bracket) nofun scans
  generalize Place.spanTo _ _ = last at closed
  obtain ⟨tokens, items, scans, assembles, same⟩ := inside _ _ _ (.cons delimits) closed
  have opened := Scans.token (.opening opener) nofun scans
  generalize Place.spanTo _ _ = first at opened
  obtain ⟨form, made, rfl⟩ := closes items same { first with stop := last.stop }
  refine ⟨⟨.opening opener, first⟩ :: (tokens ++ [⟨.closing opener.closer, last⟩]), [form], ?_,
    .collection assembles made .nil, rfl⟩
  simpa using opened

/-- Pieces between which blanks or commas stand. -/
theorem intercalate {α : Type} {pieces : List α} {written : α → List Char} {meant : α → List Datum}
    {separator : List Char} (separates : separator = [' '] ∨ separator = [',', ' '])
    (each : ∀ piece ∈ pieces, Prints (written piece) (meant piece)) :
    Prints (separator.intercalate (pieces.map written)) (pieces.flatMap meant) := by
  induction pieces with
  | nil => exact nil
  | cons piece pieces ih =>
    have here := each piece (List.mem_cons_self ..)
    have later := ih fun other member => each other (List.mem_cons_of_mem _ member)
    cases pieces with
    | nil => simpa using here
    | cons next pieces =>
      rw [List.map_cons, List.map_cons, List.intercalate_cons_cons, List.flatMap_cons,
        List.append_assoc]
      rcases separates with rfl | rfl
      · exact here.append (blank (by decide) later) (.cons (by decide))
      · exact here.append (blank (by decide) (blank (by decide) later)) (.cons (by decide))

theorem seq (shape : Shape) (inside : Prints text data) :
    Prints (shape.opening.toList ++ (text ++ shape.closing.toList)) [.seq shape data] := by
  have closing : shape.closing.toList = [(Opener.seq shape).closer] := by cases shape <;> rfl
  rw [closing]
  refine @collection _ _ (.seq shape) _ inside fun items same span => ⟨.seq shape items span, rfl, ?_⟩
  rw [Form.datum, Form.data_eq_map, same]

theorem map {entries : List (Datum × Datum)}
    (inside : Prints text (entries.flatMap fun entry => [entry.1, entry.2])) :
    Prints ('\x7b' :: (text ++ ['\x7d'])) [.map entries] :=
  @collection _ _ .map _ inside fun _ same span => close_map same span

end Prints

/-- A printed datum makes up a form that is read for it. -/
theorem prints_text {datum : Datum}
    (spelled : ∀ value, datum.Contains value →
      ∃ isOpen, Spells (.atom value.reread) value.text.toList isOpen) :
    Prints datum.text.toList [datum.reread] := by
  induction datum using Datum.induction with
  | atom value =>
    obtain ⟨isOpen, spells⟩ := spelled value .here
    exact .atom spells
  | seq shape items ih =>
    have each (item : Datum) (member : item ∈ items) : Prints item.text.toList [item.reread] :=
      ih item member fun value inside => spelled value (.item member inside)
    have whole := (Prints.intercalate (.inl rfl) each).seq shape
    rw [Datum.reread, Datum.rereadItems_eq_map, List.map_eq_flatMap]
    simpa [Datum.text, Datum.texts_eq_map, Function.comp_def] using whole
  | map entries ih =>
    have each (entry : Datum × Datum) (member : entry ∈ entries) :
        Prints (entry.1.text.toList ++ ' ' :: entry.2.text.toList)
          [entry.1.reread, entry.2.reread] := by
      obtain ⟨first, second⟩ := ih entry member
      have key := first fun value inside => spelled value (.key member inside)
      have value := second fun value inside => spelled value (.value member inside)
      exact key.append (value.blank (by decide)) (.cons (by decide))
    have data : (entries.map (Prod.map Datum.reread Datum.reread)).flatMap
        (fun entry => [entry.1, entry.2]) =
          entries.flatMap fun entry => [entry.1.reread, entry.2.reread] := List.flatMap_map ..
    have inside := Prints.intercalate (.inr rfl) each
    rw [← data] at inside
    have whole := inside.map
    rw [Datum.reread, Datum.rereadEntries_eq_map]
    simpa [Datum.text, Datum.entryTexts_eq_map, Function.comp_def] using whole

/-- A datum that is printed is read back from its text. -/
theorem readOne_of_prints {text : String} {datum : Datum} (prints : Prints text.toList [datum]) :
    ∃ form, readOne text = .ok form ∧ form.datum = datum := by
  obtain ⟨tokens, forms, scans, assembles, same⟩ := prints .origin [] [] .nil .done
  obtain ⟨form, rfl, rfl⟩ := List.map_eq_singleton_iff.mp same
  refine ⟨form, readOne_eq_iff.mpr ⟨tokens, ?_, assembles⟩, rfl⟩
  simpa using scans

/-! ### What was read -/

theorem Assembles.eq_of_atom {tokens : List Token} {value : Atom} {span : Span}
    (assembles : Assembles tokens [.atom value span]) : tokens = [⟨.atom value, span⟩] := by
  generalize single : [Form.atom value span] = forms at assembles
  cases assembles with
  | nil => cases single
  | atom rest =>
    obtain ⟨⟨rfl, rfl⟩, rfl⟩ := List.cons.inj single
    rw [rest.eq_nil]
  | @collection opener _ _ _ _ _ _ _ _ closes _ =>
    obtain ⟨rfl, rfl⟩ := List.cons.inj single
    unfold Assembly.close at closes
    split at closes
    · cases closes
    · split at closes <;> cases closes
  | quote _ _ => cases single

/-- Every atom inside a form that is read has a spelling. The text has one for it, or it stands for a
quote mark. -/
theorem exists_spells_of_read {text : String} {forms : List Form} {form sub : Form} {value : Atom}
    (reads : readAll text = .ok forms) (member : form ∈ forms) (within : sub.Within form)
    (contains : sub.datum.Contains value) :
    ∃ spelled isOpen, Spells (.atom value) spelled isOpen := by
  obtain ⟨tokens, scans, assembles⟩ := readAll_eq_iff.mp reads
  obtain ⟨span, inside⟩ := Form.exists_within_of_contains contains rfl
  rcases assembles.stands form member _ (inside.trans within) with
    ⟨before, own, after, rfl, made⟩ | ⟨before, mark, after, _, same⟩
  · rw [made.eq_of_atom, List.append_assoc] at scans
    obtain ⟨_, spelled, isOpen, _, _, spells, _⟩ := scans.exists_spelled
    exact ⟨spelled, isOpen, spells⟩
  · obtain ⟨rfl, _⟩ := Form.atom.inj same
    have unbroken : IsUnbroken ['u', 'o', 't', 'e'] := by simp [IsUnbroken]; decide
    exact ⟨'q' :: ['u', 'o', 't', 'e'], true, .word (by decide) unbroken rfl⟩

/-- The text of every exact form of a text that is read can be read again, and gives the same datum just
if nothing in the datum changes on the way; so does the text of every integer and of every character. -/
theorem readOne_text :
    (∀ text forms, readAll text = .ok forms → ∀ form ∈ forms, ∀ sub : Form, sub.Within form →
      sub.datum.IsExact →
      ∃ again, readOne sub.text = .ok again ∧ (again.datum = sub.datum ↔ sub.datum.IsPlain)) ∧
    (∀ value : Int64, ∃ again, readOne (Atom.int value).text = .ok again ∧
      again.datum = .atom (.int value)) ∧
    ∀ c : Char, ∃ again, readOne (Atom.char c).text = .ok again ∧ again.datum = .atom (.char c) := by
  refine ⟨?_, ?_, ?_⟩
  · intro text forms reads form member sub within exact
    have spelled (value : Atom) (contains : sub.datum.Contains value) :
        ∃ isOpen, Spells (.atom value.reread) value.text.toList isOpen := by
      obtain ⟨_, _, spells⟩ := exists_spells_of_read reads member within contains
      exact spells.printed fun number same => exact number (same ▸ contains)
    obtain ⟨again, reads, same⟩ := readOne_of_prints (prints_text spelled)
    refine ⟨again, reads, ?_⟩
    rw [same]
    exact Datum.reread_eq_iff
  · intro value
    exact readOne_of_prints (.atom (spells_int value))
  · intro c
    obtain ⟨isOpen, spells⟩ := spells_char c
    exact readOne_of_prints (.atom spells)

/-- The vector `[\( "é"]` is printed with an escape in the string, and another vector is read back. -/
theorem accent_misread :
    ∃ form again, readAll "[\\( \x22é\x22]" = .ok [form] ∧
      form.datum = .seq .vector [.atom (.char '('), .atom (.string "é")] ∧
      readOne form.text = .ok again ∧ again.datum ≠ form.datum := by
  have exact : (Datum.seq .vector [.atom (.char '('), .atom (.string "é")]).IsExact := by
    rintro number (_ | ⟨member, inside⟩)
    rcases List.mem_cons.mp member with rfl | member
    · cases inside
    · obtain rfl := List.mem_singleton.mp member
      cases inside
  have reads : readAll "[\\( \x22é\x22]" = .ok [.vector [.atom (.char '(') ⟨1, 3, 1, 2, none⟩,
      .atom (.string "é") ⟨4, 8, 1, 5, none⟩] ⟨0, 9, 1, 1, none⟩] := rfl
  obtain ⟨again, reread, plain⟩ :=
    readOne_text.1 _ _ reads _ (List.mem_singleton_self _) _ .self exact
  refine ⟨_, again, reads, rfl, reread, fun same => ?_⟩
  have accent := plain.mp same "é" (.item (List.mem_cons_of_mem _ (List.mem_singleton_self _)) .here)
  exact absurd (accent 'é' (by decide)) (by decide)

end Source

end LispScope
