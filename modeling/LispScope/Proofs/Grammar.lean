import LispScope.Proofs.Spelling

/-!
# How forms are made of tokens

`Assembles` is the grammar of forms: an atom is one token, a collection stands between an opening
bracket and the closing one that fits it, and a quote mark takes the one form after it. The assembly
of `LispScope.Source.Read` works over a stack instead; `Reached` explains a stack by the tokens that
have been read. Main statements: `readAll_eq_iff`, by which a text is read as the forms that its
tokens make up by the grammar and is refused if there are none, and `readAll_ne_emptyToken`.
-/
namespace LispScope.Source

/-- Tokens that make up forms. -/
inductive Assembles : List Token → List Form → Prop
  | nil : Assembles [] []
  | atom {value : Atom} {span : Span} {tokens : List Token} {forms : List Form}
      (rest : Assembles tokens forms) :
      Assembles (⟨.atom value, span⟩ :: tokens) (.atom value span :: forms)
  | collection {opener : Opener} {opening closing : Span} {inner tokens : List Token}
      {items forms : List Form} {form : Form} (inside : Assembles inner items)
      (closes : Assembly.close opener items { opening with stop := closing.stop } = .ok form)
      (rest : Assembles tokens forms) :
      Assembles
        (⟨.opening opener, opening⟩ :: (inner ++ ⟨.closing opener.closer, closing⟩ :: tokens))
        (form :: forms)
  | quote {mark : Span} {inner tokens : List Token} {form : Form} {forms : List Form}
      (quoted : Assembles inner [form]) (rest : Assembles tokens forms) :
      Assembles (⟨.quote, mark⟩ :: (inner ++ tokens)) (Assembly.quoteForm mark form :: forms)

namespace Assembles

variable {tokens other : List Token} {forms more : List Form}

theorem append (first : Assembles tokens forms) (second : Assembles other more) :
    Assembles (tokens ++ other) (forms ++ more) := by
  induction first with
  | nil => exact second
  | atom _ ih => exact .atom ih
  | collection inside closes _ _ ih =>
    have whole := Assembles.collection inside closes ih
    simpa only [List.cons_append, List.append_assoc] using whole
  | @quote mark _ _ _ _ quoted _ _ ih =>
    have whole := @Assembles.quote mark _ _ _ _ quoted ih
    simpa only [List.cons_append, List.append_assoc] using whole

end Assembles

namespace Assembly

variable {assembly next : Assembly} {tokens other : List Token} {forms found : List Form} {form : Form}
  {pending : List Pending}

/-! ### The assembly delivers what the grammar makes -/

/-- The assembly after a completed form. -/
def accept (assembly : Assembly) (form : Form) : Assembly :=
  deliver form assembly.forms assembly.pending

theorem foldl_accept_collection {opener : Opener} {opening : Span} {items : List Form} :
    found.foldl accept ⟨.collection opener opening items :: pending, forms⟩ =
      ⟨.collection opener opening (found.reverse ++ items) :: pending, forms⟩ := by
  induction found generalizing items with
  | nil => rfl
  | cons form found ih =>
    rw [List.foldl_cons, accept, deliver, ih]
    simp

theorem foldl_accept_empty : found.foldl accept ⟨[], forms⟩ = ⟨[], found.reverse ++ forms⟩ := by
  induction found generalizing forms with
  | nil => rfl
  | cons form found ih =>
    rw [List.foldl_cons, accept, deliver, ih]
    simp

/-- The assembly takes in the tokens of some forms as if it were handed the forms. -/
theorem foldlM_of_assembles (assembles : Assembles tokens found) (assembly : Assembly) :
    tokens.foldlM step assembly = .ok (found.foldl accept assembly) := by
  induction assembles generalizing assembly with
  | nil => rfl
  | atom _ ih => exact ih _
  | @collection opener opening closing _ _ items _ form _ closes _ collected ih =>
    have opened : step assembly ⟨.opening opener, opening⟩ =
        .ok ⟨.collection opener opening [] :: assembly.pending, assembly.forms⟩ := rfl
    have closed : step ⟨.collection opener opening items.reverse :: assembly.pending, assembly.forms⟩
        ⟨.closing opener.closer, closing⟩ = .ok (assembly.accept form) := by
      simp only [step, if_true, List.reverse_reverse, closes]
      rfl
    rw [List.foldlM_cons, opened]
    change List.foldlM step _ _ = _
    rw [List.foldlM_append, collected, foldl_accept_collection, List.append_nil]
    change List.foldlM step _ _ = _
    rw [List.foldlM_cons, closed]
    exact ih _
  | @quote mark _ _ _ _ _ _ accepted ih =>
    have opened : step assembly ⟨.quote, mark⟩ =
        .ok ⟨.quotation mark :: assembly.pending, assembly.forms⟩ := rfl
    rw [List.foldlM_cons, opened]
    change List.foldlM step _ _ = _
    rw [List.foldlM_append, accepted]
    exact ih _

/-! ### The stack of the assembly holds what the grammar has made -/

/-- The tokens with which the assembly comes to a state. -/
inductive Reached : List Token → Assembly → Prop
  | base {tokens : List Token} {forms : List Form} (assembles : Assembles tokens forms.reverse) :
      Reached tokens ⟨[], forms⟩
  | collection {opener : Opener} {opening : Span} {tokens inner : List Token}
      {forms items : List Form} {pending : List Pending} (before : Reached tokens ⟨pending, forms⟩)
      (inside : Assembles inner items.reverse) :
      Reached (tokens ++ ⟨.opening opener, opening⟩ :: inner)
        ⟨.collection opener opening items :: pending, forms⟩
  | quotation {mark : Span} {tokens : List Token} {forms : List Form} {pending : List Pending}
      (before : Reached tokens ⟨pending, forms⟩) :
      Reached (tokens ++ [⟨.quote, mark⟩]) ⟨.quotation mark :: pending, forms⟩

theorem Reached.deliver {own : List Token} (reached : Reached tokens ⟨pending, forms⟩)
    (assembles : Assembles own [form]) : Reached (tokens ++ own) (Assembly.deliver form forms pending) := by
  induction pending generalizing tokens own form with
  | nil =>
    cases reached with
    | base before =>
      apply Reached.base
      simpa using before.append assembles
  | cons top pending ih =>
    cases reached with
    | @collection opener opening tokens inner _ items _ before inside =>
      rw [List.append_assoc, List.cons_append]
      apply Reached.collection before
      simpa using inside.append assembles
    | @quotation mark tokens _ _ before =>
      -- The form completes what its quote mark makes, which is handed on in turn.
      have quoted : Assembles (⟨.quote, mark⟩ :: (own ++ [])) [quoteForm mark form] :=
        .quote assembles .nil
      rw [List.append_nil] at quoted
      rw [List.append_assoc]
      exact ih before quoted

theorem Reached.step {token : Token} (reached : Reached tokens assembly)
    (steps : assembly.step token = .ok next) : Reached (tokens ++ [token]) next := by
  obtain ⟨pending, forms⟩ := assembly
  obtain ⟨lexeme, span⟩ := token
  cases lexeme with
  | opening opener =>
    obtain rfl := Except.ok.inj steps
    exact .collection reached .nil
  | quote =>
    obtain rfl := Except.ok.inj steps
    exact .quotation reached
  | atom value =>
    obtain rfl := Except.ok.inj steps
    exact reached.deliver (.atom .nil)
  | closing closer =>
    cases reached with
    | base _ => cases steps
    | quotation _ => cases steps
    | @collection opener opening tokens inner _ items _ before inside =>
      -- Only the bracket that fits the innermost open collection closes anything.
      by_cases fits : opener.closer = closer
      · subst fits
        simp only [Assembly.step, if_true] at steps
        cases closes : close opener items.reverse { opening with stop := span.stop } with
        | error error =>
          rw [closes] at steps
          cases steps
        | ok form =>
          rw [closes] at steps
          obtain rfl := Except.ok.inj steps
          rw [List.append_assoc]
          exact before.deliver (.collection inside closes .nil)
      · simp only [Assembly.step, if_neg fits] at steps
        cases steps

theorem Reached.run (reached : Reached other assembly)
    (runs : tokens.foldlM Assembly.step assembly = .ok next) : Reached (other ++ tokens) next := by
  induction tokens generalizing assembly other with
  | nil =>
    obtain rfl := Except.ok.inj runs
    simpa using reached
  | cons token tokens ih =>
    rw [List.foldlM_cons] at runs
    cases steps : assembly.step token with
    | error error =>
      rw [steps] at runs
      cases runs
    | ok middle =>
      rw [steps] at runs
      simpa using ih (reached.step steps) runs

theorem Reached.finish {stop : Place} (reached : Reached tokens assembly)
    (finishes : assembly.finish stop = .ok forms) : Assembles tokens forms := by
  cases reached with
  | base assembles =>
    obtain rfl := Except.ok.inj finishes
    exact assembles
  | collection _ _ => cases finishes
  | quotation _ => cases finishes

end Assembly

/-! ### What is read -/

/-- A text is read as the forms that its tokens make up. -/
theorem readAll_eq_iff {text : String} {forms : List Form} :
    readAll text = .ok forms ↔
      ∃ tokens, Scans .origin text.toList tokens ∧ Assembles tokens forms := by
  constructor
  · intro reads
    rw [readAll, assemble] at reads
    cases runs : (scan text.toList).tokens.foldlM Assembly.step .empty with
    | error error =>
      rw [runs] at reads
      cases reads
    | ok assembly =>
      cases ends : (scan text.toList).ending with
      | error error =>
        rw [runs, ends] at reads
        cases reads
      | ok stop =>
        rw [runs, ends] at reads
        have scanned : scan text.toList = ⟨(scan text.toList).tokens, .ok stop⟩ := by rw [← ends]
        refine ⟨_, (scan_eq_iff.mp scanned).1, ?_⟩
        have reached := Assembly.Reached.run (.base .nil) runs
        exact reached.finish reads
  · rintro ⟨tokens, scans, assembles⟩
    have scanned := scan_eq_iff.mpr ⟨scans, rfl⟩
    have runs := Assembly.foldlM_of_assembles assembles .empty
    rw [Assembly.empty, Assembly.foldl_accept_empty, List.append_nil] at runs
    simp only [readAll, assemble, scanned, Assembly.empty, runs]
    simp [Assembly.finish, bind, Except.bind]

theorem readOne_eq_iff {text : String} {form : Form} :
    readOne text = .ok form ↔
      ∃ tokens, Scans .origin text.toList tokens ∧ Assembles tokens [form] := by
  rw [← readAll_eq_iff, readOne]
  cases readAll text with
  | error error => exact ⟨nofun, nofun⟩
  | ok forms =>
    change single forms = _ ↔ _
    match forms with
    | [] => exact ⟨nofun, nofun⟩
    | [only] => simp [single, pure, Except.pure]
    | _ :: _ :: _ => exact ⟨nofun, by simp⟩

/-! ### What is refused -/

/-- A collection that its bracket fits is refused only as a map with a key without value. -/
theorem Assembly.error_of_close {opener : Opener} {items : List Form} {span : Span}
    {error : ReadError} (closes : close opener items span = .error error) : error = .oddMap := by
  unfold close at closes
  split at closes
  · cases closes
  · split at closes
    · cases closes
    · exact (Except.error.inj closes).symm

theorem Assembly.step_ne_emptyToken (assembly : Assembly) (token : Token) :
    assembly.step token ≠ .error .emptyToken := by
  fun_cases Assembly.step assembly token
  case case4 opener opening items pending held closing =>
    cases closes : close opener items.reverse { opening with stop := token.span.stop } with
    | ok form => exact nofun
    | error error =>
      obtain rfl := error_of_close closes
      exact nofun
  all_goals exact nofun

theorem Assembly.foldlM_ne_emptyToken (tokens : List Token) (assembly : Assembly) :
    tokens.foldlM step assembly ≠ .error .emptyToken := by
  induction tokens generalizing assembly with
  | nil => exact nofun
  | cons token tokens ih =>
    rw [List.foldlM_cons]
    cases steps : assembly.step token with
    | error error =>
      intro empty
      exact step_ne_emptyToken assembly token (steps.trans empty)
    | ok next => exact ih next

/-- No text is refused for a word without characters. -/
theorem readAll_ne_emptyToken (text : String) : readAll text ≠ .error .emptyToken := by
  rw [readAll, assemble]
  cases runs : (scan text.toList).tokens.foldlM Assembly.step .empty with
  | error error =>
    intro empty
    obtain rfl : error = .emptyToken := Except.error.inj empty
    exact Assembly.foldlM_ne_emptyToken _ _ runs
  | ok assembly =>
    cases ends : (scan text.toList).ending with
    | error error =>
      intro empty
      obtain rfl : error = .emptyToken := Except.error.inj empty
      exact scan_ne_emptyToken _ ends
    | ok stop =>
      change assembly.finish stop ≠ _
      fun_cases Assembly.finish assembly stop <;> exact nofun

end LispScope.Source
