import LispScope.Source.Read
import Mathlib.Data.List.TakeWhile

/-!
# How texts are made of tokens

`Scans` says how a text is composed: of tokens, each spelled in one of the ways of `Spells`, of blanks and
commas, and of remarks. Words have no end of their own and must be followed by a delimiter or by nothing.
The relation says nothing of modes and of what the scanner does next. Main statements:
`scan_eq_iff`, by which the scanner finds the tokens of every text that is so composed and stops at
an error in every other, and `scan_ne_emptyToken`, by which it never meets a word without characters.
-/
namespace LispScope.Source

/-! ### Spellings -/

/-- The place after a text. -/
def Place.past (place : Place) (text : List Char) : Place := text.foldl Place.after place

@[simp] theorem Place.past_nil (place : Place) : place.past [] = place := rfl

@[simp] theorem Place.past_cons (place : Place) (c : Char) (text : List Char) :
    place.past (c :: text) = (place.after c).past text := rfl

@[simp] theorem Place.past_append (place : Place) (first second : List Char) :
    place.past (first ++ second) = (place.past first).past second := List.foldl_append

/-- A word ends before the text. -/
def EndsWord (text : List Char) : Prop := ∀ c ∈ text.head?, isDelimiter c = true

theorem EndsWord.nil : EndsWord [] := by simp [EndsWord]

theorem EndsWord.cons {c : Char} {text : List Char} (delimits : isDelimiter c = true) :
    EndsWord (c :: text) := by simpa [EndsWord] using delimits

/-- No character ends a word. -/
def IsUnbroken (text : List Char) : Prop := ∀ c ∈ text, isDelimiter c = false

theorem isDelimiter_of_blank {c : Char} (blank : (Text.isBlank c || c = ',') = true) :
    isDelimiter c = true := by
  simp only [Bool.or_eq_true, decide_eq_true_eq] at blank
  rcases blank with blank | rfl
  · simp [isDelimiter, blank]
  · decide

/-- Whether a word begins with the character. -/
def beginsWord (c : Char) : Bool := !(isDelimiter c || ['\x27', '\\', '#'].contains c)

/-- How an opening bracket is written. -/
def Opener.opening : Opener → List Char
  | seq shape => shape.opening.toList
  | map => ['{']

/-- What stands between the marks of a string, and what it means. -/
inductive Quotes : List Char → List Char → Prop
  | nil : Quotes [] []
  | plain (unmarked : c ≠ '\x22' ∧ c ≠ '\\') (rest : Quotes body text) :
      Quotes (c :: body) (c :: text)
  | escaped (rest : Quotes body text) :
      Quotes ('\\' :: c :: body) (Scanner.unescape c :: text)

/-- How a lexeme is written. The flag tells whether it goes on until something ends it. -/
inductive Spells : Lexeme → List Char → Bool → Prop
  | opening (opener : Opener) : Spells (.opening opener) opener.opening false
  | closing (closes : c = ')' ∨ c = ']' ∨ c = '}') : Spells (.closing c) [c] false
  | quote : Spells .quote ['\x27'] false
  | word (begins : beginsWord first = true) (unbroken : IsUnbroken rest)
      (reads : atomOfWord (first :: rest) = .ok value) : Spells (.atom value) (first :: rest) true
  | string (quotes : Quotes body text) :
      Spells (.atom (.string (String.ofList text))) ('\x22' :: (body ++ ['\x22'])) false
  | delimiter (delimits : isDelimiter c = true) : Spells (.atom (.char c)) ['\\', c] false
  | char (begins : isDelimiter first = false) (unbroken : IsUnbroken rest)
      (reads : charOfWord (first :: rest) = .ok value) :
      Spells (.atom (.char value)) ('\\' :: first :: rest) true

/-- A text that begins at a place consists of the given tokens. -/
inductive Scans : Place → List Char → List Token → Prop
  | done {place : Place} : Scans place [] []
  | blank {place : Place} {c : Char} {text : List Char} {tokens : List Token}
      (blank : (Text.isBlank c || c = ',') = true) (rest : Scans (place.after c) text tokens) :
      Scans place (c :: text) tokens
  | remark {place : Place} {remark text : List Char} {tokens : List Token}
      (inside : ∀ c ∈ remark, c ≠ '\n') (ends : ∀ c ∈ text.head?, c = '\n')
      (rest : Scans (place.past (';' :: remark)) text tokens) :
      Scans place (';' :: (remark ++ text)) tokens
  | token {place : Place} {lexeme : Lexeme} {spelled text : List Char} {isOpen : Bool}
      {tokens : List Token} (spells : Spells lexeme spelled isOpen)
      (ends : isOpen = true → EndsWord text) (rest : Scans (place.past spelled) text tokens) :
      Scans place (spelled ++ text)
        (⟨lexeme, place.spanTo (place.past spelled).offset⟩ :: tokens)

theorem Spells.ne_nil {lexeme : Lexeme} {spelled : List Char} {isOpen : Bool}
    (spells : Spells lexeme spelled isOpen) : spelled ≠ [] := by
  cases spells with
  | opening opener =>
    rcases opener with shape | _
    · cases shape <;> decide
    · decide
  | _ => exact List.cons_ne_nil _ _

/-! ### Runs of the scanner -/

namespace Scanner

variable {place start stop : Place} {tokens found : List Token} {text body rest : List Char}
  {error : ReadError} {lexeme : Lexeme} {spelled : List Char} {isOpen : Bool}

/-- The scanner between two tokens. -/
def ready (place : Place) (tokens : List Token) : Scanner := ⟨.between, place, tokens⟩

theorem step_blank {c : Char} (blank : (Text.isBlank c || c = ',') = true) :
    (ready place tokens).step c = ready (place.after c) tokens := by
  simp [step, react, ready, beginWith, blank, enter]

theorem step_word {c : Char} (begins : beginsWord c = true) :
    (ready place tokens).step c = ⟨.word place [c], place.after c, tokens⟩ := by
  have solid : ¬ (Text.isBlank c || c = ',') = true := by
    intro blank
    rw [beginsWord, isDelimiter_of_blank blank] at begins
    cases begins
  -- None of the characters that begin something else begins a word.
  have begun : (ready place tokens).beginWith c = (ready place tokens).enter (.word place [c]) := by
    rw [beginWith, if_neg solid]
    · rfl
    all_goals
      rintro rfl
      exact absurd begins (by decide)
  rw [step, react, ready]
  exact congrArg (fun scanner : Scanner => { scanner with place := place.after c }) begun

theorem step_backslash {c : Char} (begins : isDelimiter c = false) :
    (⟨.backslash start, place, tokens⟩ : Scanner).step c =
      ⟨.charWord start [c], place.after c, tokens⟩ := by
  simp [step, react, begins, enter]

theorem foldl_remark (inside : ∀ c ∈ text, c ≠ '\n') :
    text.foldl step ⟨.comment, place, tokens⟩ = ⟨.comment, place.past text, tokens⟩ := by
  induction text generalizing place with
  | nil => rfl
  | cons c text ih =>
    have here : (⟨.comment, place, tokens⟩ : Scanner).step c = ⟨.comment, place.after c, tokens⟩ := by
      simp [step, react, inside c (List.mem_cons_self ..)]
    rw [List.foldl_cons, here]
    exact ih fun other member => inside other (List.mem_cons_of_mem _ member)

theorem foldl_word {reversed : List Char} (unbroken : IsUnbroken text) :
    text.foldl step ⟨.word start reversed, place, tokens⟩ =
      ⟨.word start (text.reverse ++ reversed), place.past text, tokens⟩ := by
  induction text generalizing place reversed with
  | nil => rfl
  | cons c text ih =>
    have here : (⟨.word start reversed, place, tokens⟩ : Scanner).step c =
        ⟨.word start (c :: reversed), place.after c, tokens⟩ := by
      simp [step, react, unbroken c (List.mem_cons_self ..), enter]
    rw [List.foldl_cons, here, ih fun other member => unbroken other (List.mem_cons_of_mem _ member)]
    simp

theorem foldl_charWord {reversed : List Char} (unbroken : IsUnbroken text) :
    text.foldl step ⟨.charWord start reversed, place, tokens⟩ =
      ⟨.charWord start (text.reverse ++ reversed), place.past text, tokens⟩ := by
  induction text generalizing place reversed with
  | nil => rfl
  | cons c text ih =>
    have here : (⟨.charWord start reversed, place, tokens⟩ : Scanner).step c =
        ⟨.charWord start (c :: reversed), place.after c, tokens⟩ := by
      simp [step, react, unbroken c (List.mem_cons_self ..), enter]
    rw [List.foldl_cons, here, ih fun other member => unbroken other (List.mem_cons_of_mem _ member)]
    simp

theorem step_string {c : Char} {reversed : List Char} (unmarked : c ≠ '\x22' ∧ c ≠ '\\') :
    (⟨.string start reversed, place, tokens⟩ : Scanner).step c =
      ⟨.string start (c :: reversed), place.after c, tokens⟩ := by
  simp only [step, react]
  split
  · exact absurd rfl unmarked.1
  · exact absurd rfl unmarked.2
  · rfl

theorem foldl_string {reversed meant : List Char} (quotes : Quotes body meant) :
    body.foldl step ⟨.string start reversed, place, tokens⟩ =
      ⟨.string start (meant.reverse ++ reversed), place.past body, tokens⟩ := by
  induction quotes generalizing place reversed with
  | nil => rfl
  | plain unmarked _ ih =>
    rw [List.foldl_cons, step_string unmarked, ih]
    simp
  | @escaped body meant c _ ih =>
    have here : (['\\', c]).foldl step ⟨.string start reversed, place, tokens⟩ =
        ⟨.string start (unescape c :: reversed), (place.after '\\').after c, tokens⟩ := rfl
    rw [show '\\' :: c :: body = ['\\', c] ++ body from rfl, List.foldl_append, here, ih]
    simp

/-- Nothing is read after a stop. -/
theorem finish_stopped :
    (text.foldl step ⟨.stopped error, place, tokens⟩).finish.ending = .error error := by
  induction text generalizing place with
  | nil => rfl
  | cons c text ih => exact ih

/-- The scanner is in a word. -/
def IsInWord (scanner : Scanner) : Prop :=
  ∃ start reversed, scanner.mode = .word start reversed ∨ scanner.mode = .charWord start reversed

theorem IsInWord.step_delimiter {scanner : Scanner} {c : Char} (word : scanner.IsInWord)
    (delimits : isDelimiter c = true) :
    scanner.react c = if scanner.endWord.mode = .between then scanner.endWord.beginWith c
      else scanner.endWord := by
  obtain ⟨start, reversed, held | held⟩ := word <;> simp [react, held, delimits]

/-- A word that ends well leaves the scanner as if its token had just been read. -/
theorem IsInWord.finish {scanner : Scanner} (word : scanner.IsInWord)
    (ended : scanner.endWord = ready scanner.place found) (ends : EndsWord text) :
    (text.foldl step scanner).finish = (text.foldl step (ready scanner.place found)).finish := by
  cases text with
  | nil =>
    simp only [List.foldl_nil, Scanner.finish, ended]
    rfl
  | cons c text =>
    have here : scanner.step c = (ready scanner.place found).step c := by
      have react := word.step_delimiter (ends c rfl)
      rw [ended] at react
      rw [step, step, react]
      rfl
    rw [List.foldl_cons, List.foldl_cons, here]

theorem IsInWord.finish_error {scanner : Scanner} (word : scanner.IsInWord)
    (ended : scanner.endWord = scanner.enter (.stopped error)) (ends : EndsWord text) :
    (text.foldl step scanner).finish.ending = .error error := by
  cases text with
  | nil =>
    simp only [List.foldl_nil, Scanner.finish, ended]
    rfl
  | cons c text =>
    have here : scanner.step c = ⟨.stopped error, scanner.place.after c, scanner.tokens⟩ := by
      have react := word.step_delimiter (ends c rfl)
      rw [ended] at react
      rw [step, react]
      rfl
    rw [List.foldl_cons, here]
    exact finish_stopped

/-- After a spelling the scanner goes on as if the token had just been read. -/
theorem finish_spells (spells : Spells lexeme spelled isOpen) (ends : isOpen = true → EndsWord text) :
    (text.foldl step (spelled.foldl step (ready place tokens))).finish =
      (text.foldl step (ready (place.past spelled)
        (⟨lexeme, place.spanTo (place.past spelled).offset⟩ :: tokens))).finish := by
  cases spells with
  | opening opener =>
    rcases opener with shape | _
    · cases shape <;> rfl
    · rfl
  | closing closes => rcases closes with rfl | rfl | rfl <;> rfl
  | quote => rfl
  | @word first rest value begins unbroken reads =>
    rw [List.foldl_cons, step_word begins, foldl_word unbroken]
    refine IsInWord.finish ⟨place, rest.reverse ++ [first], .inl rfl⟩ ?_ (ends rfl)
    simp [endWord, reads, emit, enter, ready]
  | @string body meant quotes =>
    have opened : (ready place tokens).step '\x22' =
        ⟨.string place [], place.after '\x22', tokens⟩ := rfl
    rw [List.foldl_cons, opened, List.foldl_append, foldl_string quotes]
    simp [step, react, emit, enter, ready]
  | delimiter delimits =>
    have opened : (ready place tokens).step '\\' = ⟨.backslash place, place.after '\\', tokens⟩ := rfl
    rw [List.foldl_cons, opened]
    simp [step, react, delimits, emit, enter, ready]
  | @char first rest value begins unbroken reads =>
    have opened : (ready place tokens).step '\\' = ⟨.backslash place, place.after '\\', tokens⟩ := rfl
    rw [List.foldl_cons, opened, List.foldl_cons, step_backslash begins, foldl_charWord unbroken]
    refine IsInWord.finish ⟨place, rest.reverse ++ [first], .inr rfl⟩ ?_ (ends rfl)
    simp [endWord, reads, emit, enter, ready]

/-- After a remark the scanner goes on as between two tokens. -/
theorem finish_remark (inside : ∀ c ∈ body, c ≠ '\n') (ends : ∀ c ∈ text.head?, c = '\n') :
    ((';' :: (body ++ text)).foldl step (ready place tokens)).finish =
      (text.foldl step (ready (place.past (';' :: body)) tokens)).finish := by
  have opened : (ready place tokens).step ';' = ⟨.comment, place.after ';', tokens⟩ := rfl
  rw [List.foldl_cons, opened, List.foldl_append, foldl_remark inside]
  cases text with
  | nil => rfl
  | cons c text =>
    obtain rfl : c = '\n' := ends c rfl
    rfl

end Scanner

/-- The scanner finds the tokens that a text consists of. -/
theorem Scans.finish {place : Place} {text : List Char} {found : List Token}
    (scans : Scans place text found) (tokens : List Token) :
    (text.foldl Scanner.step (Scanner.ready place tokens)).finish =
      ⟨tokens.reverse ++ found, .ok (place.past text)⟩ := by
  induction scans generalizing tokens with
  | done => simp [Scanner.finish, Scanner.ready, Scanner.endWord]
  | blank blank _ ih => rw [List.foldl_cons, Scanner.step_blank blank, ih, Place.past_cons]
  | remark inside ends _ ih =>
    rw [Scanner.finish_remark inside ends, ih, ← List.cons_append, Place.past_append]
  | token spells ends _ ih =>
    rw [List.foldl_append, Scanner.finish_spells spells ends, ih, Place.past_append,
      List.reverse_cons, List.append_assoc]
    rfl

/-! ### What the scanner accepts -/

theorem exists_unbroken (text : List Char) :
    ∃ word rest, text = word ++ rest ∧ IsUnbroken word ∧ EndsWord rest := by
  refine ⟨text.takeWhile fun c => !isDelimiter c, text.dropWhile fun c => !isDelimiter c,
    List.takeWhile_append_dropWhile.symm, ?_, ?_⟩
  · intro c member
    simpa using List.mem_takeWhile_imp member
  · intro c first
    have stops := List.head?_dropWhile_not (fun c => !isDelimiter c) text
    rw [first] at stops
    simpa using stops

/-- A string is closed, or the text ends inside it. -/
theorem exists_quotes (text : List Char) :
    (∃ body meant rest, text = body ++ '\x22' :: rest ∧ Quotes body meant) ∨
      ∀ start reversed place tokens,
        (text.foldl Scanner.step ⟨.string start reversed, place, tokens⟩).finish.ending =
          .error .unterminatedString := by
  -- A backslash takes the next character with it, so the text after one is followed as well.
  suffices both : _ ∧
      ((∃ c body meant rest, text = c :: (body ++ '\x22' :: rest) ∧ Quotes body meant) ∨
        ∀ start reversed place tokens,
          (text.foldl Scanner.step ⟨.escape start reversed, place, tokens⟩).finish.ending =
            .error .unterminatedString) from both.1
  induction text with
  | nil => exact ⟨.inr fun _ _ _ _ => rfl, .inr fun _ _ _ _ => rfl⟩
  | cons c text ih =>
    obtain ⟨inside, escaped⟩ := ih
    constructor
    · by_cases mark : c = '\x22'
      · exact .inl ⟨[], [], text, by rw [mark]; rfl, .nil⟩
      by_cases backslash : c = '\\'
      · subst backslash
        rcases escaped with ⟨d, body, meant, rest, rfl, quotes⟩ | unterminated
        · exact .inl ⟨'\\' :: d :: body, _, rest, rfl, .escaped quotes⟩
        · exact .inr fun start reversed place tokens => unterminated ..
      · rcases inside with ⟨body, meant, rest, rfl, quotes⟩ | unterminated
        · exact .inl ⟨c :: body, _, rest, rfl, .plain ⟨mark, backslash⟩ quotes⟩
        · refine .inr fun start reversed place tokens => ?_
          rw [List.foldl_cons, Scanner.step_string ⟨mark, backslash⟩]
          exact unterminated ..
    · rcases inside with ⟨body, meant, rest, rfl, quotes⟩ | unterminated
      · exact .inl ⟨c, body, meant, rest, rfl, quotes⟩
      · exact .inr fun start reversed place tokens => unterminated ..

/-- A text begins with the spelling of a token, or the scanner refuses it between two tokens. -/
def BeginsToken (text : List Char) : Prop :=
  (∃ lexeme spelled isOpen rest, text = spelled ++ rest ∧ Spells lexeme spelled isOpen ∧
    (isOpen = true → EndsWord rest)) ∨
  ∀ place tokens, ∃ error,
    (text.foldl Scanner.step (Scanner.ready place tokens)).finish.ending = .error error

namespace BeginsToken

theorem string (text : List Char) : BeginsToken ('\x22' :: text) := by
  rcases exists_quotes text with ⟨body, meant, rest, rfl, quotes⟩ | unterminated
  · exact .inl ⟨_, _, _, rest, by simp, .string quotes, nofun⟩
  · exact .inr fun place tokens => ⟨_, unterminated ..⟩

theorem char (text : List Char) : BeginsToken ('\\' :: text) := by
  cases text with
  | nil => exact .inr fun place tokens => ⟨_, rfl⟩
  | cons first text =>
    cases delimits : isDelimiter first with
    | true => exact .inl ⟨_, _, _, text, rfl, .delimiter delimits, nofun⟩
    | false =>
      obtain ⟨word, rest, rfl, unbroken, ends⟩ := exists_unbroken text
      cases reads : charOfWord (first :: word) with
      | ok value => exact .inl ⟨_, _, _, rest, rfl, .char delimits unbroken reads, fun _ => ends⟩
      | error error =>
        refine .inr fun place tokens => ⟨error, ?_⟩
        have opened : ['\\', first].foldl Scanner.step (Scanner.ready place tokens) =
            ⟨.charWord place [first], (place.after '\\').after first, tokens⟩ :=
          Scanner.step_backslash delimits
        rw [show '\\' :: first :: (word ++ rest) = ['\\', first] ++ (word ++ rest) from rfl,
          List.foldl_append, opened, List.foldl_append, Scanner.foldl_charWord unbroken]
        refine Scanner.IsInWord.finish_error ⟨place, word.reverse ++ [first], .inr rfl⟩ ?_ ends
        simp [Scanner.endWord, reads]

/-- A hash sign opens a set, or nothing that is known. -/
theorem hash (text : List Char) : BeginsToken ('#' :: text) := by
  by_cases set : ∃ rest, text = '{' :: rest
  · obtain ⟨rest, rfl⟩ := set
    exact .inl ⟨_, _, _, rest, rfl, .opening (.seq .set), nofun⟩
  · refine .inr fun place tokens => ⟨.unsupportedDispatch place, ?_⟩
    cases text with
    | nil => rfl
    | cons c text =>
      have other : c ≠ '{' := fun same => set ⟨text, by rw [same]⟩
      have stopped : (⟨.hash place, place.after '#', tokens⟩ : Scanner).step c =
          ⟨.stopped (.unsupportedDispatch place), (place.after '#').after c, tokens⟩ := by
        simp [Scanner.step, Scanner.react, other, Scanner.enter]
      have hashed : (Scanner.ready place tokens).step '#' = ⟨.hash place, place.after '#', tokens⟩ :=
        rfl
      rw [List.foldl_cons, hashed, List.foldl_cons, stopped]
      exact Scanner.finish_stopped

theorem word {c : Char} (begins : beginsWord c = true) (text : List Char) :
    BeginsToken (c :: text) := by
  obtain ⟨word, rest, rfl, unbroken, ends⟩ := exists_unbroken text
  cases reads : atomOfWord (c :: word) with
  | ok value => exact .inl ⟨_, _, _, rest, rfl, .word begins unbroken reads, fun _ => ends⟩
  | error error =>
    refine .inr fun place tokens => ⟨error, ?_⟩
    rw [List.foldl_cons, Scanner.step_word begins, List.foldl_append, Scanner.foldl_word unbroken]
    refine Scanner.IsInWord.finish_error ⟨place, word.reverse ++ [c], .inl rfl⟩ ?_ ends
    simp [Scanner.endWord, reads]

/-- Nothing but blanks and remarks stands between two tokens. -/
theorem of_solid {c : Char} (solid : (Text.isBlank c || c = ',') = false) (unremarked : c ≠ ';')
    (text : List Char) : BeginsToken (c :: text) := by
  by_cases bracket : c = '(' ∨ c = '[' ∨ c = '{'
  · left
    rcases bracket with rfl | rfl | rfl
    · exact ⟨_, _, _, text, rfl, .opening (.seq .list), nofun⟩
    · exact ⟨_, _, _, text, rfl, .opening (.seq .vector), nofun⟩
    · exact ⟨_, _, _, text, rfl, .opening .map, nofun⟩
  by_cases closes : c = ')' ∨ c = ']' ∨ c = '}'
  · exact .inl ⟨_, _, _, text, rfl, .closing closes, nofun⟩
  by_cases quote : c = '\x27'
  · exact .inl ⟨_, _, _, text, by rw [quote]; rfl, .quote, nofun⟩
  by_cases mark : c = '\x22'
  · exact mark ▸ string text
  by_cases backslash : c = '\\'
  · exact backslash ▸ char text
  by_cases sign : c = '#'
  · exact sign ▸ hash text
  · -- What is left begins a word.
    apply word
    simp only [not_or] at bracket closes
    simp only [Bool.or_eq_false_iff, decide_eq_false_iff_not] at solid
    simp [beginsWord, isDelimiter, *]

end BeginsToken

/-- A text that the scanner reads to its end consists of tokens. -/
theorem exists_scans {text : List Char} {place stop : Place} {tokens : List Token}
    (ended : (text.foldl Scanner.step (Scanner.ready place tokens)).finish.ending = .ok stop) :
    ∃ found, Scans place text found := by
  -- A token or a remark takes several characters at once, so the induction is on their number.
  induction count : text.length using Nat.strongRecOn generalizing text place tokens with
  | ind count ih =>
  subst count
  cases text with
  | nil => exact ⟨[], .done⟩
  | cons c text =>
    cases blank : Text.isBlank c || c = ',' with
    | true =>
      rw [List.foldl_cons, Scanner.step_blank blank] at ended
      obtain ⟨found, scans⟩ := ih text.length (Nat.lt_succ_self _) ended rfl
      exact ⟨found, .blank blank scans⟩
    | false =>
    by_cases remark : c = ';'
    · subst remark
      have split : text = text.takeWhile (· ≠ '\n') ++ text.dropWhile (· ≠ '\n') :=
        List.takeWhile_append_dropWhile.symm
      have inside : ∀ c ∈ text.takeWhile (· ≠ '\n'), c ≠ '\n' := fun c member => by
        simpa using List.mem_takeWhile_imp member
      have ends : ∀ c ∈ (text.dropWhile (· ≠ '\n')).head?, c = '\n' := fun c first => by
        have stops := List.head?_dropWhile_not (· ≠ '\n') text
        rw [first] at stops
        simpa using stops
      have shorter := (List.dropWhile_sublist (l := text) (· ≠ '\n')).length_le
      rw [split, Scanner.finish_remark inside ends] at ended
      obtain ⟨found, scans⟩ := ih _ (Nat.lt_succ_of_le shorter) ended rfl
      rw [split]
      exact ⟨found, .remark inside ends scans⟩
    · rcases BeginsToken.of_solid blank remark text with
        ⟨lexeme, spelled, isOpen, rest, same, spells, ends⟩ | refused
      · have length := congrArg List.length same
        have inhabited := List.length_pos_iff.mpr spells.ne_nil
        rw [same, List.foldl_append, Scanner.finish_spells spells ends] at ended
        rw [List.length_append] at length
        obtain ⟨found, scans⟩ := ih rest.length (by omega) ended rfl
        rw [same]
        exact ⟨_, .token spells ends scans⟩
      · obtain ⟨error, failed⟩ := refused place tokens
        rw [failed] at ended
        cases ended

/-- The scanner reads a text to its end exactly if it consists of tokens, and finds those. -/
theorem scan_eq_iff {text : List Char} {tokens : List Token} {stop : Place} :
    scan text = ⟨tokens, .ok stop⟩ ↔ Scans .origin text tokens ∧ stop = Place.origin.past text := by
  constructor
  · intro scanned
    obtain ⟨found, scans⟩ := exists_scans (congrArg Scanned.ending scanned)
    have finished := scans.finish []
    rw [List.reverse_nil, List.nil_append] at finished
    obtain ⟨rfl, ended⟩ := Scanned.mk.inj (finished.symm.trans scanned)
    exact ⟨scans, (Except.ok.inj ended).symm⟩
  · rintro ⟨scans, rfl⟩
    exact scans.finish []

/-! ### Words without characters -/

theorem atomOfWord_ne_emptyToken {word : List Char} (inhabited : word ≠ []) :
    atomOfWord word ≠ .error .emptyToken := by
  fun_cases atomOfWord word <;> simp_all

theorem charOfWord_ne_emptyToken (word : List Char) : charOfWord word ≠ .error .emptyToken := by
  fun_cases charOfWord word <;> simp

/-- The word in the mode has a character, and no word without one has stopped the scanner. -/
def Mode.IsSound : Mode → Prop
  | .word _ reversed => reversed ≠ []
  | .stopped error => error ≠ .emptyToken
  | _ => True

namespace Scanner

theorem endWord_isSound {scanner : Scanner} (sound : scanner.mode.IsSound) :
    scanner.endWord.mode.IsSound := by
  fun_cases endWord scanner
  case case2 start reversed held error refused =>
    rw [held] at sound
    have nonempty : reversed.reverse ≠ [] := by simpa [Mode.IsSound] using sound
    intro empty
    exact atomOfWord_ne_emptyToken nonempty (empty ▸ refused)
  case case4 start reversed held error refused =>
    intro empty
    exact charOfWord_ne_emptyToken _ (empty ▸ refused)
  case case5 => exact sound
  all_goals trivial

theorem beginWith_isSound (scanner : Scanner) (c : Char) :
    (scanner.beginWith c).mode.IsSound := by
  fun_cases beginWith scanner c <;> simp [enter, Mode.IsSound]

theorem step_isSound {scanner : Scanner} (sound : scanner.mode.IsSound) (c : Char) :
    (scanner.step c).mode.IsSound := by
  change (scanner.react c).mode.IsSound
  fun_cases react scanner c
  case case1 => exact beginWith_isSound ..
  case case3 | case18 => exact sound
  case case4 => exact List.cons_ne_nil _ _
  case case5 | case14 => exact beginWith_isSound ..
  case case6 | case15 => exact endWord_isSound sound
  case case17 => exact nofun
  all_goals trivial

theorem foldl_isSound {scanner : Scanner} (sound : scanner.mode.IsSound)
    (text : List Char) : (text.foldl step scanner).mode.IsSound := by
  induction text generalizing scanner with
  | nil => exact sound
  | cons c text ih => exact ih (step_isSound sound c)

end Scanner

theorem scan_ne_emptyToken (text : List Char) : (scan text).ending ≠ .error .emptyToken := by
  have start : Scanner.initial.mode.IsSound := trivial
  have ended := Scanner.endWord_isSound (Scanner.foldl_isSound start text)
  rw [scan, Scanner.finish]
  generalize (text.foldl Scanner.step .initial).endWord = scanner at ended ⊢
  dsimp only
  split
  all_goals simp_all [Mode.IsSound]

end LispScope.Source
