import LispScope.Analysis
import LispScope.Proofs.Lockstep

/-!
# Forms that look alike

A `Resemblance` says which forms are taken to be alike: their atoms are the same and their parts are
alike. It is one for a host if the host treats such forms alike. Equality is one for every host; where
the host does not look at spans, having the same datum is another one.

Whatever the analysis finds out about a form without its state, it finds out about every form that is
alike, except where the form stands. Two answers *agree* if both are refused or both are given.
-/
namespace LispScope

/-- Answers that are both given and related, or both refused. -/
inductive Agree (S : α → β → Prop) : Except Diagnostic α → Except Diagnostic β → Prop
  | ok (related : S value value') : Agree S (.ok value) (.ok value')
  | error (diagnostic diagnostic' : Diagnostic) : Agree S (.error diagnostic) (.error diagnostic')

/-- Replies of a host that are both given and related, or both refused, and leave the same state. -/
inductive Replied {σ : Type} (S : α → β → Prop) :
    EStateM.Result Diagnostic σ α → EStateM.Result Diagnostic σ β → Prop
  | ok (related : S value value') (world : σ) : Replied S (.ok value world) (.ok value' world)
  | error (diagnostic diagnostic' : Diagnostic) (world : σ) :
      Replied S (.error diagnostic world) (.error diagnostic' world)

/-- Forms with the same atom, or with related parts in the same kind of collection. -/
inductive Form.Alike (R : Form → Form → Prop) : Form → Form → Prop
  | atom (value : Atom) (span span' : Span) : Alike R (.atom value span) (.atom value span')
  | seq (shape : Shape) (span span' : Span) (items : List.Forall₂ R parts parts') :
      Alike R (.seq shape parts span) (.seq shape parts' span')
  | map (span span' : Span) (items : List.Forall₂ (Paired R) entries entries') :
      Alike R (.map entries span) (.map entries' span')

/-- Which forms are taken to be alike. -/
structure Resemblance where
  Like : Form → Form → Prop
  parts : ∀ {form form'}, Like form form' → Form.Alike Like form form'

/-- Which forms are taken to be alike by a host, in the states that it can come to. -/
structure Resemblance.For {σ : Type} (host : Host σ) (start : σ) extends Resemblance where
  expand : ∀ {call call' world}, host.Reaches start world → Like call call' →
    Replied Like (host.expandOnce call world) (host.expandOnce call' world)
  read : ∀ {whole span span' world} (text : String), host.Reaches start world →
    Like (.atom (.string whole) span) (.atom (.string whole) span') →
    Replied (List.Forall₂ Like) (host.readFragment text span world)
      (host.readFragment text span' world)

theorem isSome_eq_of_rel {R : α → β → Prop} {first : Option α} {second : Option β}
    (related : Option.Rel R first second) : second.isSome = first.isSome := by
  cases related <;> rfl

namespace Agree

variable {α β γ δ : Type} {S : α → β → Prop} {T : γ → δ → Prop}

theorem bind {answer : Except Diagnostic α} {answer' : Except Diagnostic β}
    {next : α → Except Diagnostic γ} {next' : β → Except Diagnostic δ} (first : Agree S answer answer')
    (follow : ∀ value value', S value value' → Agree T (next value) (next' value')) :
    Agree T (answer >>= next) (answer' >>= next') := by
  cases first with
  | ok related => exact follow _ _ related
  | error diagnostic diagnostic' => exact .error _ _

/-- What is taken from each item of a list agrees if it does so for the items. -/
theorem mapM {ask : α → Except Diagnostic γ} {ask' : β → Except Diagnostic δ} {items : List α}
    {items' : List β} (each : ∀ item item', S item item' → Agree T (ask item) (ask' item'))
    (related : List.Forall₂ S items items') :
    Agree (List.Forall₂ T) (items.mapM ask) (items'.mapM ask') := by
  induction related with
  | nil => exact .ok .nil
  | cons first _ ih =>
    rw [List.mapM_cons, List.mapM_cons]
    refine bind (each _ _ first) fun value value' held => ?_
    exact bind ih fun values values' rest => .ok (.cons held rest)

end Agree

namespace Resemblance

variable (look : Resemblance) {form form' : Form} {items items' : List Form} {span span' : Span}

/-! ### Atoms -/

theorem symbol?_eq (like : look.Like form form') : form'.symbol? = form.symbol? := by
  cases look.parts like with
  | atom value => cases value <;> rfl
  | _ => rfl

theorem localName?_eq (like : look.Like form form') : form'.localName? = form.localName? := by
  rw [Form.localName?, Form.localName?, look.symbol?_eq like]

theorem isNamed_eq (like : look.Like form form') (name : String) :
    form'.isNamed name = form.isNamed name := by
  rw [Form.isNamed, Form.isNamed, look.symbol?_eq like]

theorem string?_eq (like : look.Like form form') : form'.string? = form.string? := by
  cases look.parts like with
  | atom value => cases value <;> rfl
  | _ => rfl

theorem int?_eq (like : look.Like form form') : form'.int? = form.int? := by
  cases look.parts like with
  | atom value => cases value <;> rfl
  | _ => rfl

/-! ### Collections -/

/-- Lists are alike if their items are. -/
theorem list? (like : look.Like form form') :
    Option.Rel (List.Forall₂ look.Like) form.list? form'.list? := by
  cases look.parts like with
  | atom => exact .none
  | seq shape _ _ items =>
    cases shape
    · exact .some items
    · exact .none
    · exact .none
  | map => exact .none

theorem map? (like : look.Like form form') :
    Option.Rel (List.Forall₂ (Paired look.Like)) form.map? form'.map? := by
  cases look.parts like with
  | map _ _ items => exact .some items
  | _ => exact .none

theorem head?_eq (like : look.Like form form') : form'.head? = form.head? := by
  rw [Form.head?, Form.head?]
  have lists := look.list? like
  generalize form.list? = listed, form'.list? = listed' at lists
  cases lists with
  | none => rfl
  | some items =>
    cases items with
    | nil => rfl
    | cons first rest => exact look.symbol?_eq first

mutual

theorem isConstant_eq {form form' : Form} (like : look.Like form form') :
    form'.isConstant = form.isConstant := by
  cases form with
  | atom value span =>
    cases look.parts like with
    | atom => cases value <;> rfl
  | seq shape items span =>
    cases look.parts like with
    | seq _ _ _ parts =>
      cases shape with
      | list => cases parts <;> rfl
      | vector => exact areConstant_eq parts
      | set => exact areConstant_eq parts
  | map entries span =>
    cases look.parts like with
    | map _ _ parts => exact entriesAreConstant_eq parts
termination_by structural form

theorem areConstant_eq {items items' : List Form} (like : List.Forall₂ look.Like items items') :
    Form.areConstant items' = Form.areConstant items := by
  cases items with
  | nil => cases like; rfl
  | cons item items =>
    cases like with
    | cons first rest => rw [Form.areConstant, isConstant_eq first, areConstant_eq rest, Form.areConstant]
termination_by structural items

theorem entriesAreConstant_eq {entries entries' : List (Form × Form)}
    (like : List.Forall₂ (Paired look.Like) entries entries') :
    Form.entriesAreConstant entries' = Form.entriesAreConstant entries := by
  cases entries with
  | nil => cases like; rfl
  | cons entry entries =>
    cases like with
    | cons first rest =>
      cases first with
      | mk keys values =>
        rw [Form.entriesAreConstant, isConstant_eq keys, isConstant_eq values,
          entriesAreConstant_eq rest, Form.entriesAreConstant]
termination_by structural entries

end

mutual

/-- The same keywords are interned, so that the same datum results. -/
theorem constant_eq {m : Type → Type} [Monad m] (intern : Symbol → m Symbol) {form form' : Form}
    (like : look.Like form form') : form'.constant intern = form.constant intern := by
  cases form with
  | atom value span =>
    cases look.parts like with
    | atom => cases value <;> rfl
  | seq shape items span =>
    cases look.parts like with
    | seq _ _ _ parts => rw [Form.constant, constants_eq intern parts, Form.constant]
  | map entries span =>
    cases look.parts like with
    | map _ _ parts => rw [Form.constant, entryConstants_eq intern parts, Form.constant]
termination_by structural form

theorem constants_eq {m : Type → Type} [Monad m] (intern : Symbol → m Symbol)
    {items items' : List Form} (like : List.Forall₂ look.Like items items') :
    Form.constants intern items' = Form.constants intern items := by
  cases items with
  | nil => cases like; rfl
  | cons item items =>
    cases like with
    | cons first rest =>
      rw [Form.constants, constant_eq intern first, constants_eq intern rest, Form.constants]
termination_by structural items

theorem entryConstants_eq {m : Type → Type} [Monad m] (intern : Symbol → m Symbol)
    {entries entries' : List (Form × Form)}
    (like : List.Forall₂ (Paired look.Like) entries entries') :
    Form.entryConstants intern entries' = Form.entryConstants intern entries := by
  cases entries with
  | nil => cases like; rfl
  | cons entry entries =>
    cases like with
    | cons first rest =>
      cases first with
      | mk keys values =>
        rw [Form.entryConstants, constant_eq intern keys, constant_eq intern values,
          entryConstants_eq intern rest, Form.entryConstants]
termination_by structural entries

end

/-! ### Parts of special forms -/

theorem pairs? (like : List.Forall₂ look.Like items items') :
    Option.Rel (List.Forall₂ (Paired look.Like)) (Form.pairs? items) (Form.pairs? items') := by
  induction items using Form.pairs?.induct generalizing items' with
  | case1 =>
    cases like
    exact .some .nil
  | case2 =>
    rcases like with _ | ⟨_, ⟨⟩⟩
    exact .none
  | case3 first second rest ih =>
    rcases like with _ | ⟨one, _ | ⟨two, others⟩⟩
    rw [Form.pairs?, Form.pairs?, Option.map_eq_bind, Option.map_eq_bind]
    exact optionRel_bind (ih others) fun _ _ held => .some (.cons (.mk one two) held)

theorem bindingPairs {binder : Binder} {vector vector' : Option Form}
    (like : Option.Rel look.Like vector vector') :
    Agree (List.Forall₂ (Paired look.Like)) (bindingPairs binder vector span)
      (bindingPairs binder vector' span') := by
  cases like with
  | none => exact .error _ _
  | some like =>
    cases look.parts like with
    | atom => exact .error _ _
    | map => exact .error _ _
    | @seq items items' shape _ _ parts =>
      cases shape with
      | list => exact .error _ _
      | set => exact .error _ _
      | vector =>
        have pairs := look.pairs? parts
        simp only [LispScope.bindingPairs]
        generalize Form.pairs? items = found, Form.pairs? items' = found' at pairs
        cases pairs with
        | none => exact .error _ _
        | some held => exact .ok held

theorem bindingName {binder : Binder} (like : look.Like form form') :
    Agree Eq (bindingName binder form) (bindingName binder form') := by
  rw [LispScope.bindingName, LispScope.bindingName, look.localName?_eq like]
  cases form.localName? with
  | none => exact .error _ _
  | some name => exact .ok rfl

theorem caseInteger {part : CasePart} (like : look.Like form form') :
    Agree Eq (caseInteger part form) (caseInteger part form') := by
  rw [LispScope.caseInteger, LispScope.caseInteger, look.int?_eq like]
  cases form.int? with
  | none => exact .error _ _
  | some value => exact .ok rfl

theorem paramsOfItems (like : List.Forall₂ look.Like items items') :
    Agree Eq (Params.ofItems items) (Params.ofItems items') := by
  induction like with
  | nil => exact .ok rfl
  | @cons param param' after after' first rest ih =>
    unfold Params.ofItems
    rw [look.isNamed_eq first, look.localName?_eq first]
    split
    -- The name of the rest parameter is all that may come now.
    · cases rest with
      | nil => exact .error _ _
      | cons named more =>
        cases more with
        | cons => exact .error _ _
        | nil =>
          simp only [Params.restName?, look.localName?_eq named]
          split
          · exact .ok rfl
          · exact .error _ _
    · split
      · refine .bind ih ?_
        rintro params _ rfl
        exact .ok rfl
      · exact .error _ _

theorem paramsParse (limit : Nat) (like : List.Forall₂ look.Like items items') :
    Agree Eq (Params.parse limit items span) (Params.parse limit items' span') := by
  refine .bind (look.paramsOfItems like) ?_
  rintro params _ rfl
  dsimp only
  split
  · exact .error _ _
  · exact .ok rfl

/-- Arities with the same parts, but for their places. -/
structure Arities (first second : ArityForm) : Prop where
  params : List.Forall₂ look.Like first.params second.params
  body : List.Forall₂ look.Like first.body second.body

theorem arityOfList (like : look.Like form form') :
    Agree look.Arities (ArityForm.ofList form) (ArityForm.ofList form') := by
  cases look.parts like with
  | atom => exact .error _ _
  | map => exact .error _ _
  | seq shape _ _ parts =>
    cases shape with
    | vector => exact .error _ _
    | set => exact .error _ _
    | list =>
      cases parts with
      | nil => exact .error _ _
      | cons first body =>
        cases look.parts first with
        | atom => exact .error _ _
        | map => exact .error _ _
        | seq shape _ _ params =>
          cases shape with
          | vector => exact .ok ⟨params, body⟩
          | list => exact .error _ _
          | set => exact .error _ _

theorem arityForms (like : List.Forall₂ look.Like items items') :
    Agree (List.Forall₂ look.Arities) (ArityForm.ofForms items span)
      (ArityForm.ofForms items' span') := by
  have lists := Agree.mapM (fun _ _ like => look.arityOfList like) like
  cases like with
  | nil => exact .error _ _
  | cons first body =>
    cases look.parts first with
    | atom => exact lists
    | map => exact lists
    | seq shape _ _ params =>
      cases shape with
      | vector => exact .ok (.cons ⟨params, body⟩ .nil)
      | list => exact lists
      | set => exact lists

theorem functionName (like : List.Forall₂ look.Like items items') :
    Agree (Keyed (List.Forall₂ look.Like)) (functionName items) (functionName items') := by
  cases like with
  | nil => exact .ok (.mk none .nil)
  | cons first rest =>
    have whole := List.Forall₂.cons first rest
    cases look.parts first with
    | seq => exact .ok (.mk none whole)
    | map => exact .ok (.mk none whole)
    | atom value =>
      cases value with
      | symbol name =>
        simp only [LispScope.functionName]
        split
        · exact .error _ _
        · exact .ok (.mk _ rest)
      | _ => exact .ok (.mk none whole)

/-- Parts of a definition that are alike. -/
structure Definitions (first second : DefParts) : Prop where
  name : first.name = second.name
  value : Option.Rel look.Like first.value second.value

theorem defParts {current : String} (like : List.Forall₂ look.Like items items') :
    Agree look.Definitions (DefParts.ofItems current items span)
      (DefParts.ofItems current items' span') := by
  -- The name is checked before the comment, and both are looked at alike.
  have define {name name' : Form} {doc doc' value value' : Option Form} (named : look.Like name name')
      (documented : Option.Rel look.Like doc doc') (valued : Option.Rel look.Like value value') :
      Agree look.Definitions
        (do
          let name ← DefParts.definable current name
          doc.forM DefParts.checkDoc
          return ⟨name, value⟩)
        (do
          let name ← DefParts.definable current name'
          doc'.forM DefParts.checkDoc
          return ⟨name, value'⟩) := by
    have names : Agree Eq (DefParts.definable current name) (DefParts.definable current name') := by
      rw [DefParts.definable, DefParts.definable, look.symbol?_eq named]
      cases name.symbol? with
      | none => exact .error _ _
      | some symbol =>
        dsimp only
        split
        · exact .error _ _
        · exact .ok rfl
    refine .bind names ?_
    rintro symbol _ rfl
    have checks : Agree Eq (doc.forM DefParts.checkDoc) (doc'.forM DefParts.checkDoc) := by
      cases documented with
      | none => exact .ok rfl
      | some text =>
        change Agree Eq (DefParts.checkDoc _) (DefParts.checkDoc _)
        rw [DefParts.checkDoc, DefParts.checkDoc, look.string?_eq text]
        split
        · exact .error _ _
        · exact .ok rfl
    exact .bind checks fun _ _ _ => .ok ⟨rfl, valued⟩
  rcases like with _ | ⟨name, _ | ⟨second, _ | ⟨third, _ | ⟨fourth, rest⟩⟩⟩⟩
  · exact .error _ _
  · exact define name .none .none
  · exact define name .none (.some second)
  · exact define name (.some second) (.some third)
  · exact .error _ _

/-- Parts of a `try` that are alike. -/
structure Trials (first second : TryParts) : Prop where
  body : List.Forall₂ look.Like first.body second.body
  handler : Option.Rel (fun clause clause' => List.Forall₂ look.Like clause.1 clause'.1)
    first.handler second.handler
  cleanup : Option.Rel (List.Forall₂ look.Like) first.cleanup second.cleanup

theorem clause? (like : look.Like form form') :
    Option.Rel (Keyed (List.Forall₂ look.Like)) (TryParts.clause? form) (TryParts.clause? form') := by
  cases look.parts like with
  | atom => exact .none
  | map => exact .none
  | seq shape _ _ parts =>
    cases shape with
    | vector => exact .none
    | set => exact .none
    | list =>
      cases parts with
      | nil => exact .none
      | cons head rest =>
        simp only [TryParts.clause?, look.isNamed_eq head]
        split
        · exact .some (.mk _ (.cons head rest))
        · split
          · exact .some (.mk _ (.cons head rest))
          · exact .none

theorem tryAdd {parts parts' : TryParts} (trials : look.Trials parts parts')
    (like : look.Like form form') :
    Agree look.Trials (parts.add form) (parts'.add form') := by
  have clauses := look.clause? like
  rw [TryParts.add, TryParts.add, isSome_eq_of_rel trials.handler, isSome_eq_of_rel trials.cleanup]
  generalize TryParts.clause? form = clause, TryParts.clause? form' = clause' at clauses
  cases clauses with
  | none =>
    dsimp only
    split
    · exact .error _ _
    · exact .ok ⟨List.rel_append trials.body (.cons like .nil), trials.handler, trials.cleanup⟩
  | some keyed =>
    obtain ⟨kind, items⟩ := keyed
    dsimp only
    split
    · exact .error _ _
    · cases kind with
      | cleanup => exact .ok ⟨trials.body, trials.handler, .some items⟩
      | handler =>
        dsimp only
        split
        · exact .error _ _
        · exact .ok ⟨trials.body, .some items, trials.cleanup⟩

theorem tryParts (like : List.Forall₂ look.Like items items') :
    Agree look.Trials (TryParts.ofItems items) (TryParts.ofItems items') := by
  have folds {parts parts' : TryParts} (trials : look.Trials parts parts') :
      Agree look.Trials (items.foldlM TryParts.add parts) (items'.foldlM TryParts.add parts') := by
    induction like generalizing parts parts' with
    | nil => exact .ok trials
    | cons first _ ih =>
      rw [List.foldlM_cons, List.foldlM_cons]
      exact .bind (look.tryAdd trials first) fun _ _ trials => ih trials
  exact folds ⟨.nil, .none, .none⟩

/-- Parts of a `catch` clause that are alike. -/
structure Catches (first second : CatchParts) : Prop where
  exceptionType : first.exceptionType = second.exceptionType
  name : first.name = second.name
  body : List.Forall₂ look.Like first.body second.body

theorem catchParts (like : List.Forall₂ look.Like items items') :
    Agree look.Catches (CatchParts.ofItems items span) (CatchParts.ofItems items' span') := by
  rcases like with _ | ⟨head, _ | ⟨type, _ | ⟨name, body⟩⟩⟩
  · exact .error _ _
  · exact .error _ _
  · exact .error _ _
  · simp only [CatchParts.ofItems, look.symbol?_eq type, look.localName?_eq name]
    split
    · exact .ok ⟨rfl, rfl, body⟩
    · exact .error _ _

/-- Parts of a `case*` that are alike. -/
structure Choices (first second : CaseParts) : Prop where
  value : look.Like first.value second.value
  shift : first.shift = second.shift
  mask : first.mask = second.mask
  fallback : look.Like first.fallback second.fallback
  entries : List.Forall₂ (Paired look.Like) first.entries second.entries

theorem caseParts (like : List.Forall₂ look.Like items items') :
    Agree look.Choices (CaseParts.ofItems items span) (CaseParts.ofItems items' span') := by
  rcases like with _ | ⟨value, _ | ⟨shift, _ | ⟨mask, _ | ⟨fallback, _ | ⟨branches, _ | ⟨_, _⟩⟩⟩⟩⟩⟩
  case cons.cons.cons.cons.cons.nil =>
    refine .bind (look.caseInteger shift) ?_
    rintro shift _ rfl
    refine .bind (look.caseInteger mask) ?_
    rintro mask _ rfl
    -- The branches are maps for both or for neither.
    have maps := look.map? branches
    revert maps
    generalize Form.map? _ = found
    generalize Form.map? _ = found'
    intro maps
    cases maps with
    | none => exact .error _ _
    | some entries => exact .ok ⟨value, rfl, rfl, fallback, entries⟩
  all_goals exact .error _ _

end Resemblance

end LispScope
