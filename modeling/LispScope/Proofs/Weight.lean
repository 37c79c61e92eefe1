import LispScope.Host.Standard
import LispScope.Proofs.Shape
import Mathlib

/-!
# The weight of forms

A measure of how much there is to analyze. A collection weighs one more than its items, a text as much
as it has characters, and a call of a standard macro so much more that its expansion is lighter. Main
statements: `Source.load_readAll`, by which the forms in a text weigh no more than the text, and
`Piece.length_of_mem_split?`, by which an interpolated text is no longer than the whole.
-/
namespace LispScope

/-- What the call of a standard macro weighs beyond any other list, by the name of the macro. -/
def Standard.surcharge (name : String) : Nat :=
  if name = "when" then 2
  else if name = "unless" then 4
  else if name = "defn" then 2
  else if name = "broken" then 1
  else 0

theorem Standard.surcharge_le (name : String) : surcharge name ≤ name.length := by
  unfold surcharge
  split_ifs with same same same same
  · rw [same]
    decide
  · rw [same]
    decide
  · rw [same]
    decide
  · rw [same]
    decide
  · exact Nat.zero_le _

namespace Form

/-- What a form adds to the weight of a list that it is the head of. -/
def surcharge (form : Form) : Nat :=
  (form.symbol?.map fun symbol => Standard.surcharge symbol.name).getD 0

mutual

/-- How much there is to analyze in a form. -/
def weight : Form → Nat
  | atom (.string text) _ => text.length
  | atom _ _ => 0
  | seq _ items _ => 1 + (items.head?.map surcharge).getD 0 + weights items
  | map entries _ => 1 + entryWeights entries
termination_by structural form => form

def weights : List Form → Nat
  | [] => 0
  | item :: items => item.weight + weights items
termination_by structural items => items

def entryWeights : List (Form × Form) → Nat
  | [] => 0
  | (key, value) :: entries => key.weight + value.weight + entryWeights entries
termination_by structural entries => entries

end

/-- The weight of a form, and what it adds where it may become the head of a list. -/
def load (form : Form) : Nat := form.weight + form.surcharge

theorem weights_eq_sum (items : List Form) : weights items = (items.map weight).sum := by
  induction items with
  | nil => rfl
  | cons item items ih => rw [weights, ih, List.map_cons, List.sum_cons]

theorem entryWeights_eq_sum (entries : List (Form × Form)) :
    entryWeights entries = ((entries.flatMap fun entry => [entry.1, entry.2]).map weight).sum := by
  induction entries with
  | nil => rfl
  | cons entry entries ih =>
    obtain ⟨key, value⟩ := entry
    simp only [entryWeights, ih, List.flatMap_cons, List.cons_append, List.nil_append, List.map_cons,
      List.sum_cons]
    omega

/-- A form is heavier than what it consists of. -/
theorem weight_lt_of_mem {form item : Form} (member : item ∈ form.items) :
    item.weight < form.weight := by
  have below : item.weight ≤ (form.items.map weight).sum :=
    List.le_sum_of_mem (List.mem_map_of_mem member)
  cases form with
  | atom value span => cases member
  | seq shape members span =>
    rw [weight, weights_eq_sum]
    simp only [items] at below
    omega
  | map entries span =>
    rw [weight, entryWeights_eq_sum]
    simp only [items] at below
    omega

theorem weight_le_of_within {form sub : Form} (within : sub.Within form) :
    sub.weight ≤ form.weight := by
  induction within with
  | self => exact Nat.le_refl _
  | inside member _ ih => exact Nat.le_trans ih (Nat.le_of_lt (weight_lt_of_mem member))

theorem sum_weight_le (items : List Form) : (items.map weight).sum ≤ (items.map load).sum :=
  List.sum_le_sum fun _ _ => Nat.le_add_right ..

/-- Only the first item of a sequence counts as a head. -/
theorem weight_seq_le (shape : Shape) (items : List Form) (span : Span) :
    (seq shape items span).weight ≤ 1 + (items.map load).sum := by
  rw [weight, weights_eq_sum]
  cases items with
  | nil => simp
  | cons item items =>
    have others := sum_weight_le items
    simp only [List.head?_cons, Option.map_some, Option.getD_some, List.map_cons, List.sum_cons, load]
    omega

end Form

/-! ### Scanning -/

/-- The load of an atom. -/
def Atom.load : Atom → Nat
  | .string text => text.length
  | .symbol name => Standard.surcharge name.name
  | _ => 0

theorem Form.load_atom (value : Atom) (span : Span) : (Form.atom value span).load = value.load := by
  cases value with
  | symbol name => exact Nat.zero_add _
  | _ => rfl

namespace Source

/-- What a token adds to the load of the forms. -/
def Lexeme.load : Lexeme → Nat
  | .opening _ => 1
  | .closing _ => 0
  | .quote => 1
  | .atom value => value.load

/-- What the characters in the middle of something may add. -/
def Mode.load : Mode → Nat
  | .word _ reversed | .string _ reversed | .escape _ reversed => reversed.length
  | _ => 0

/-- A symbol has no longer name than the text it was read from. -/
theorem name_parse_le (text : String) : (Symbol.parse text).name.length ≤ text.length := by
  unfold Symbol.parse
  dsimp only
  split
  · exact Nat.le_refl _
  next slash name rest =>
    split
    · exact Nat.le_refl _
    · have after := (List.dropWhile_sublist (l := text.toList) (· ≠ '/')).length_le
      rw [rest, List.length_cons, String.length_toList] at after
      simp only [Symbol.qualified, String.length_ofList]
      omega

/-- A word stands for an atom that weighs no more. -/
theorem load_atomOfWord {word : List Char} {value : Atom} (read : atomOfWord word = .ok value) :
    value.load ≤ word.length := by
  have named (first : Char) (rest : List Char) :
      Standard.surcharge (Symbol.parse (String.ofList (first :: rest))).name ≤ (first :: rest).length := by
    have text := name_parse_le (String.ofList (first :: rest))
    rw [String.length_ofList] at text
    exact Nat.le_trans (Standard.surcharge_le _) text
  unfold atomOfWord at read
  split at read
  · cases read
  · cases read
    exact Nat.zero_le _
  next first rest _ =>
    dsimp only at read
    repeat' split at read
    all_goals cases read
    all_goals first | exact Nat.zero_le _ | exact named first rest

namespace Scanner

/-- What the tokens so far add to the load. -/
def done (scanner : Scanner) : Nat := (scanner.tokens.map fun token => token.lexeme.load).sum

/-- What a scanner has made of the characters so far. -/
def load (scanner : Scanner) : Nat := scanner.done + scanner.mode.load

@[simp] theorem done_emit (scanner : Scanner) (lexeme : Lexeme) (start : Place) (stop : Nat) :
    (scanner.emit lexeme start stop).done = lexeme.load + scanner.done :=
  List.sum_cons

@[simp] theorem load_enter (scanner : Scanner) (mode : Mode) :
    (scanner.enter mode).load = scanner.done + mode.load := rfl

theorem load_of_mode {scanner : Scanner} {mode : Mode} (held : scanner.mode = mode) :
    scanner.load = scanner.done + mode.load := by
  rw [load, held]

theorem load_endWord (scanner : Scanner) : scanner.endWord.load ≤ scanner.load := by
  unfold endWord
  split
  next start reversed held =>
    have before := load_of_mode held
    split
    next value read =>
      have within := load_atomOfWord read
      simp only [load_enter, done_emit, Lexeme.load, Mode.load, List.length_reverse] at within before ⊢
      omega
    next =>
      simp only [load_enter, Mode.load]
      omega
  next start reversed held =>
    have before := load_of_mode held
    split <;> simp only [load_enter, done_emit, Lexeme.load, Atom.load, Mode.load] at before ⊢ <;> omega
  next => exact Nat.le_refl _

theorem load_beginWith (scanner : Scanner) (c : Char) :
    (scanner.beginWith c).load ≤ scanner.done + 1 := by
  unfold beginWith
  dsimp only
  split
  · simp [Mode.load]
  · split <;> simp [Mode.load, Lexeme.load, Nat.add_comm]

/-- A character adds at most one. -/
theorem load_step (scanner : Scanner) (c : Char) : (scanner.step c).load ≤ scanner.load + 1 := by
  -- A character that ends a word may begin the next token.
  have ended : (if scanner.endWord.mode = .between then scanner.endWord.beginWith c
      else scanner.endWord).load ≤ scanner.load + 1 := by
    have word := scanner.load_endWord
    split
    next between =>
      have begun := scanner.endWord.load_beginWith c
      rw [load, between] at word
      simp only [Mode.load] at word
      omega
    next => omega
  have begun := scanner.load_beginWith c
  have before : scanner.load = scanner.done + scanner.mode.load := rfl
  change (scanner.react c).load ≤ scanner.load + 1
  unfold react
  cases held : scanner.mode with
  | between =>
    dsimp only
    omega
  | comment =>
    dsimp only
    split
    · simp only [load_enter, Mode.load]
      omega
    · omega
  | word start reversed =>
    dsimp only
    split
    · simp only [held, load_enter, Mode.load, List.length_cons] at before ⊢
      omega
    · exact ended
  | string start reversed =>
    dsimp only
    split <;> simp only [held, load_enter, done_emit, Mode.load, Lexeme.load, Atom.load,
      String.length_ofList, List.length_reverse, List.length_cons] at before ⊢ <;> omega
  | escape start reversed =>
    simp only [held, load_enter, Mode.load, List.length_cons] at before ⊢
    omega
  | backslash start =>
    dsimp only
    split <;> simp only [load_enter, done_emit, Mode.load, Lexeme.load, Atom.load] <;> omega
  | charWord start reversed =>
    dsimp only
    split
    · simp only [load_enter, Mode.load]
      omega
    · exact ended
  | hash start =>
    dsimp only
    split <;> simp only [load_enter, done_emit, Mode.load, Lexeme.load] <;> omega
  | stopped error => exact Nat.le_succ _

end Scanner

/-- The tokens of a text are no heavier than the text is long. -/
theorem load_scan (text : List Char) :
    ((scan text).tokens.map fun token => token.lexeme.load).sum ≤ text.length := by
  have fold (text : List Char) (scanner : Scanner) :
      (text.foldl Scanner.step scanner).load ≤ scanner.load + text.length := by
    induction text generalizing scanner with
    | nil => exact Nat.le_refl _
    | cons c text ih =>
      have first := scanner.load_step c
      have rest := ih (scanner.step c)
      rw [List.foldl_cons, List.length_cons]
      omega
  have read := fold text .initial
  have ended := (text.foldl Scanner.step .initial).load_endWord
  rw [show Scanner.initial.load = 0 from rfl, Nat.zero_add] at read
  change ((List.reverse _).map _).sum ≤ _
  rw [List.map_reverse, List.sum_reverse]
  exact Nat.le_trans (Nat.le_add_right ..) (Nat.le_trans ended read)

/-! ### Assembling -/

/-- What something that is open adds to the load of the forms. -/
def Pending.load : Pending → Nat
  | .collection _ _ items => 1 + (items.map Form.load).sum
  | .quotation _ => 1

namespace Assembly

def load (assembly : Assembly) : Nat :=
  (assembly.pending.map Pending.load).sum + (assembly.forms.map Form.load).sum

theorem load_quoteForm (mark : Span) (form : Form) : (quoteForm mark form).load ≤ 1 + form.load := by
  have weights : (quoteForm mark form).weight ≤ 1 + (0 + (form.load + 0)) :=
    Form.weight_seq_le .list [.symbol (.simple "quote") mark, form] _
  change (quoteForm mark form).weight + 0 ≤ 1 + form.load
  omega

theorem load_deliver (form : Form) (forms : List Form) (pending : List Pending) :
    (deliver form forms pending).load ≤
      form.load + (pending.map Pending.load).sum + (forms.map Form.load).sum := by
  induction pending generalizing form with
  | nil => simp [deliver, load]
  | cons first pending ih =>
    cases first with
    | collection opener opening items =>
      simp only [deliver, load, List.map_cons, List.sum_cons, Pending.load]
      omega
    -- A quotation is complete with its form and is delivered in turn.
    | quotation mark =>
      have delivered := ih (quoteForm mark form)
      have quoted := load_quoteForm mark form
      simp only [deliver, List.map_cons, List.sum_cons, Pending.load]
      omega

theorem load_close {opener : Opener} {items : List Form} {span : Span} {form : Form}
    (closed : close opener items span = .ok form) : form.load ≤ 1 + (items.map Form.load).sum := by
  unfold close at closed
  split at closed
  next shape =>
    cases closed
    exact Form.weight_seq_le shape items span
  next =>
    split at closed
    next entries paired =>
      cases closed
      have weights := Form.sum_weight_le items
      change Form.weight _ + 0 ≤ _
      rw [Form.weight, Form.entryWeights_eq_sum, flatMap_of_pairs? paired]
      omega
    next => cases closed

/-- A token adds no more than its load. -/
theorem load_step {assembly after : Assembly} {token : Token} (stepped : assembly.step token = .ok after) :
    after.load ≤ assembly.load + token.lexeme.load := by
  have before : assembly.load =
    (assembly.pending.map Pending.load).sum + (assembly.forms.map Form.load).sum := rfl
  unfold step at stepped
  split at stepped
  next opener lexeme =>
    cases stepped
    simp only [load, lexeme, Lexeme.load, Pending.load, List.map_cons, List.sum_cons, List.map_nil,
      List.sum_nil]
    omega
  next lexeme =>
    cases stepped
    simp only [load, lexeme, Lexeme.load, Pending.load, List.map_cons, List.sum_cons]
    omega
  next value lexeme =>
    cases stepped
    have delivered := load_deliver (.atom value token.span) assembly.forms assembly.pending
    rw [Form.load_atom] at delivered
    rw [lexeme, Lexeme.load]
    omega
  next closer lexeme =>
    split at stepped
    next opener opening items pending open_ =>
      split at stepped
      next =>
        cases closed : close opener items.reverse { opening with stop := token.span.stop } with
        | error error =>
          rw [closed] at stepped
          cases stepped
        | ok form =>
          rw [closed] at stepped
          cases stepped
          have delivered := load_deliver form assembly.forms pending
          have collected := load_close closed
          rw [List.map_reverse, List.sum_reverse] at collected
          rw [open_, List.map_cons, List.sum_cons, Pending.load] at before
          omega
      next => cases stepped
    next => cases stepped

theorem load_foldlM {assembly after : Assembly} {tokens : List Token}
    (read : tokens.foldlM step assembly = .ok after) :
    after.load ≤ assembly.load + (tokens.map fun token => token.lexeme.load).sum := by
  induction tokens generalizing assembly with
  | nil =>
    cases read
    exact Nat.le_refl _
  | cons token tokens ih =>
    rw [List.foldlM_cons] at read
    cases stepped : assembly.step token with
    | error error =>
      rw [stepped] at read
      cases read
    | ok between =>
      rw [stepped] at read
      have first := load_step stepped
      have rest := ih read
      rw [List.map_cons, List.sum_cons]
      omega

theorem load_finish {assembly : Assembly} {stop : Place} {forms : List Form}
    (finished : assembly.finish stop = .ok forms) : (forms.map Form.load).sum ≤ assembly.load := by
  unfold finish at finished
  split at finished
  · cases finished
    rw [List.map_reverse, List.sum_reverse]
    exact Nat.le_add_left ..
  · cases finished
  · cases finished

end Assembly

/-- The forms in a text are no heavier than the text is long. -/
theorem load_readAll {text : String} {forms : List Form} (read : readAll text = .ok forms) :
    (forms.map Form.load).sum ≤ text.length := by
  have tokens := load_scan text.toList
  rw [String.length_toList] at tokens
  unfold readAll assemble at read
  generalize scan text.toList = scanned at read tokens
  cases assembled : scanned.tokens.foldlM Assembly.step .empty with
  | error error =>
    rw [assembled] at read
    cases read
  | ok assembly =>
    rw [assembled] at read
    cases ended : scanned.ending with
    | error error =>
      rw [ended] at read
      cases read
    | ok stop =>
      rw [ended] at read
      have built := Assembly.load_foldlM assembled
      have kept := Assembly.load_finish read
      rw [show Assembly.empty.load = 0 from rfl] at built
      omega

end Source

/-! ### Interpolated texts -/

namespace Piece

theorem mem_of_mem_flush {reversed : List Char} {pieces : List Piece} {inner : String}
    (member : .interpolation inner ∈ flush reversed pieces) : .interpolation inner ∈ pieces := by
  unfold flush at member
  split at member
  · exact member
  · simpa using member

/-- An interpolation is no longer than what it was split off from. The two ways of splitting call one
another on less, so the induction is on the number of characters. -/
theorem length_of_split (size : Nat) (chars : List Char) (small : chars.length ≤ size) :
    (∀ reversed pieces inner, splitCode reversed chars = some pieces →
      .interpolation inner ∈ pieces → inner.length ≤ chars.length) ∧
    ∀ depth reversed pieces inner, splitInner depth reversed chars = some pieces →
      .interpolation inner ∈ pieces → inner.length ≤ reversed.length + chars.length := by
  induction size generalizing chars with
  | zero =>
    rw [List.length_eq_zero_iff.mp (Nat.le_zero.mp small)]
    constructor
    · rintro reversed pieces inner shaped member
      cases shaped
      cases mem_of_mem_flush member
    · rintro depth reversed pieces inner ⟨⟩
  | succ size ih =>
    cases chars with
    | nil => exact ih [] (Nat.zero_le _)
    | cons c rest =>
      rw [List.length_cons] at small
      have below := ih rest (Nat.le_of_succ_le_succ small)
      constructor
      · intro reversed pieces inner shaped member
        unfold splitCode at shaped
        split at shaped
        next => cases ‹c :: rest = []›
        next others same =>
          cases same
          obtain ⟨split, found, rfl⟩ := Option.map_eq_some_iff.mp shaped
          have within := (ih others (by simp at small; omega)).2 0 [] split inner found
            (mem_of_mem_flush member)
          simp only [List.length_cons, List.length_nil] at within ⊢
          omega
        next d others _ same =>
          cases same
          have within := below.1 _ pieces inner shaped member
          rw [List.length_cons]
          omega
      · intro depth reversed pieces inner shaped member
        -- Wherever the interpolation goes on, the character becomes a part of it.
        have deeper (depth : Nat) (shaped : splitInner depth (c :: reversed) rest = some pieces) :
            inner.length ≤ reversed.length + (c :: rest).length := by
          have within := below.2 depth _ pieces inner shaped member
          simp only [List.length_cons] at within ⊢
          omega
        unfold splitInner at shaped
        split at shaped
        next => exact deeper _ shaped
        next =>
          split at shaped
          next =>
            split at shaped
            next =>
              obtain ⟨split, found, rfl⟩ := Option.map_eq_some_iff.mp shaped
              rcases List.mem_cons.mp member with same | later
              · cases same
                rw [String.length_ofList, List.length_reverse]
                omega
              · have within := below.1 [] split inner found later
                rw [List.length_cons]
                omega
            next => exact deeper _ shaped
          next => exact deeper _ shaped

theorem length_of_mem_split? {text inner : String} {pieces : List Piece}
    (shaped : split? text = some pieces) (member : .interpolation inner ∈ pieces) :
    inner.length ≤ text.length := by
  have within := (length_of_split _ text.toList (Nat.le_refl _)).1 [] pieces inner shaped member
  rwa [String.length_toList] at within

end Piece

end LispScope
