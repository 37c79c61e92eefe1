import LispScope.Analysis
import Mathlib

/-!
# The parts of special forms

Before a special form is analyzed its items are taken apart without any state. Two things are needed
of that: what is refused is refused for a fault of the input, at the span of the form or of one of its
items, and what is handed out stands inside the items, so that whatever holds throughout them holds of
the parts.
-/
namespace LispScope

/-! ### Faults of the input -/

/-- An internal failure is no fault of the input. -/
theorem Fault.kind_ne_internalFailure {fault : Fault} (proper : fault.kind.family = .analyze) :
    fault.kind ≠ .internalFailure := by
  intro internal
  rw [internal] at proper
  cases proper

theorem Binder.family_kind (binder : Binder) : binder.kind.family = .analyze := by
  cases binder <;> rfl

/-- Whatever is refused is refused for a fault of the input, at a span that something holds of. -/
def Blames (P : Span → Prop) (answer : Except Diagnostic α) : Prop :=
  ∀ diagnostic, answer = .error diagnostic →
    ∃ (fault : Fault) (span : Span), fault.kind.family = .analyze ∧ P span ∧
      diagnostic = fault.diagnose span

namespace Blames

variable {P : Span → Prop}

theorem ok {value : α} : Blames P (.ok value) := nofun

theorem throw {fault : Fault} {span : Span} (proper : fault.kind.family = .analyze) (here : P span) :
    Blames (α := α) P (.error (fault.diagnose span)) := by
  rintro diagnostic ⟨⟩
  exact ⟨fault, span, proper, here, rfl⟩

theorem bind {answer : Except Diagnostic α} {next : α → Except Diagnostic β}
    (first : Blames P answer) (rest : ∀ value, answer = .ok value → Blames P (next value)) :
    Blames P (answer >>= next) := by
  cases answer with
  | ok value => exact rest value rfl
  | error diagnostic =>
    rintro _ ⟨⟩
    exact first diagnostic rfl

end Blames

theorem exists_of_bind_ok {answer : Except Diagnostic α} {next : α → Except Diagnostic β} {result : β}
    (found : answer >>= next = .ok result) : ∃ value, answer = .ok value ∧ next value = .ok result := by
  cases answer with
  | ok value => exact ⟨value, rfl, found⟩
  | error diagnostic => cases found

/-! ### Forms inside forms -/

namespace Form

/-- The forms that a form directly consists of. -/
def items : Form → List Form
  | atom .. => []
  | seq _ items _ => items
  | map entries _ => entries.flatMap fun entry => [entry.1, entry.2]

/-- A form is another one or stands inside it. -/
inductive Within (sub : Form) : Form → Prop
  | self : Within sub sub
  | inside (member : item ∈ form.items) (within : Within sub item) : Within sub form

theorem Within.trans {inner sub form : Form} (first : inner.Within sub) (second : sub.Within form) :
    inner.Within form := by
  induction second with
  | self => exact first
  | inside member _ ih => exact .inside member ih

end Form

/-- Something holds of forms and of all forms inside them. -/
def Throughout (P : Form → Prop) (forms : List Form) : Prop :=
  ∀ form ∈ forms, ∀ sub : Form, sub.Within form → P sub

namespace Throughout

variable {P : Form → Prop} {forms others : List Form} {form : Form}

theorem here (parts : Throughout P forms) (member : form ∈ forms) : P form :=
  parts form member form .self

theorem items (parts : Throughout P forms) (member : form ∈ forms) : Throughout P form.items :=
  fun _ inside sub within => parts form member sub (.inside inside within)

theorem subset (parts : Throughout P forms) (among : ∀ form ∈ others, form ∈ forms) :
    Throughout P others :=
  fun form member => parts form (among form member)

theorem head {form : Form} (parts : Throughout P (form :: forms)) : P form :=
  parts.here (List.mem_cons_self ..)

theorem tail (parts : Throughout P forms) : Throughout P forms.tail :=
  parts.subset fun _ => List.mem_of_mem_tail

theorem cons (here : P form) (inside : Throughout P form.items) (rest : Throughout P forms) :
    Throughout P (form :: forms) := by
  intro other member sub within
  rcases List.mem_cons.mp member with rfl | member
  · cases within with
    | self => exact here
    | inside member within => exact inside _ member sub within
  · exact rest other member sub within

theorem anywhere : Throughout (fun _ => True) forms := fun _ _ _ _ => trivial

/-- The entries of a map that is one of the forms. -/
theorem entries {entries : List (Form × Form)} {span : Span} (parts : Throughout P forms)
    (member : .map entries span ∈ forms) : ∀ entry ∈ entries, P entry.1 ∧ P entry.2 := by
  intro entry held
  have inside := parts.items member
  constructor <;> exact inside.here (List.mem_flatMap.mpr ⟨entry, held, by simp⟩)

end Throughout

/-- The pairs are made of the items, in their order. -/
theorem flatMap_of_pairs? {items : List Form} {pairs : List (Form × Form)}
    (found : Form.pairs? items = some pairs) :
    (pairs.flatMap fun pair => [pair.1, pair.2]) = items := by
  induction items using Form.pairs?.induct generalizing pairs with
  | case1 =>
    cases found
    rfl
  | case2 => cases found
  | case3 first second rest ih =>
    simp only [Form.pairs?, Option.map_eq_some_iff] at found
    obtain ⟨others, found, rfl⟩ := found
    simp [ih found]

theorem mem_of_pairs? {items : List Form} {pairs : List (Form × Form)} {pair : Form × Form}
    (found : Form.pairs? items = some pairs) (member : pair ∈ pairs) :
    pair.1 ∈ items ∧ pair.2 ∈ items := by
  rw [← flatMap_of_pairs? found]
  constructor <;> exact List.mem_flatMap.mpr ⟨pair, member, by simp⟩

/-! ### Definitions and local names -/

variable {Q : Span → Prop}

namespace DefParts

theorem split_ok {items : List Form} {span : Span} {name : Form} {doc value : Option Form}
    (found : split items span = .ok (name, doc, value)) :
    name ∈ items ∧ (∀ form ∈ doc, form ∈ items) ∧ ∀ form ∈ value, form ∈ items := by
  unfold split at found
  split at found <;> cases found <;> simp

theorem blames {current : String} {items : List Form} {span : Span} (here : Q span)
    (parts : Throughout (fun form => Q form.span) items) : Blames Q (ofItems current items span) := by
  refine .bind ?_ ?_
  · unfold split
    split
    · exact .ok
    · exact .ok
    · exact .ok
    · exact .throw rfl here
  rintro ⟨nameForm, doc, value⟩ found
  obtain ⟨named, commented, _⟩ := split_ok found
  refine .bind ?_ fun name _ => .bind ?_ fun _ _ => .ok
  · unfold definable
    split
    · exact .throw rfl (parts.here named)
    · split
      · exact .throw rfl (parts.here named)
      · exact .ok
  · cases doc with
    | none => exact .ok
    | some doc =>
      change Blames Q (checkDoc doc)
      unfold checkDoc
      split
      · exact .throw rfl (parts.here (commented doc rfl))
      · exact .ok

theorem value_mem {current : String} {items : List Form} {span : Span} {parts : DefParts}
    (found : ofItems current items span = .ok parts) : ∀ form ∈ parts.value, form ∈ items := by
  obtain ⟨⟨nameForm, doc, value⟩, shaped, found⟩ := exists_of_bind_ok found
  obtain ⟨name, _, found⟩ := exists_of_bind_ok found
  obtain ⟨_, _, found⟩ := exists_of_bind_ok found
  cases found
  exact (split_ok shaped).2.2

end DefParts

theorem bindingPairs_blames {binder : Binder} {args : List Form} {span : Span} (here : Q span)
    (parts : Throughout (fun form => Q form.span) args) :
    Blames Q (bindingPairs binder args.head? span) := by
  unfold bindingPairs
  split
  next first =>
    split
    · exact .ok
    · exact .throw binder.family_kind (parts.here (List.mem_of_head? first))
  · exact .throw binder.family_kind here

/-- The pairs are those of a vector that is the first of the arguments. -/
theorem bindingPairs_ok {binder : Binder} {args : List Form} {span : Span}
    {pairs : List (Form × Form)} (found : bindingPairs binder args.head? span = .ok pairs) :
    ∃ items vectorSpan, args = .vector items vectorSpan :: args.tail ∧
      Form.pairs? items = some pairs := by
  unfold bindingPairs at found
  split at found
  next items vectorSpan first =>
    obtain ⟨rest, rfl⟩ := List.head?_eq_some_iff.mp first
    split at found
    next held paired =>
      cases found
      exact ⟨items, vectorSpan, rfl, paired⟩
    next => cases found
  next => cases found

/-- Whatever holds throughout the arguments holds of the names and of the forms that are bound. -/
theorem Throughout.pairs {P : Form → Prop} {binder : Binder} {args : List Form} {span : Span}
    {pairs : List (Form × Form)} (parts : Throughout P args)
    (found : bindingPairs binder args.head? span = .ok pairs) :
    ∀ pair ∈ pairs, P pair.1 ∧ P pair.2 := by
  obtain ⟨items, vectorSpan, shaped, paired⟩ := bindingPairs_ok found
  intro pair member
  have inside : Throughout P (Form.vector items vectorSpan).items :=
    parts.items (shaped ▸ List.mem_cons_self ..)
  obtain ⟨named, valued⟩ := mem_of_pairs? paired member
  exact ⟨inside.here named, inside.here valued⟩

theorem bindingName_blames {binder : Binder} {form : Form} (here : Q form.span) :
    Blames Q (bindingName binder form) := by
  unfold bindingName
  split
  · exact .ok
  · exact .throw binder.family_kind here

/-! ### Functions -/

theorem functionName_blames {args : List Form} (parts : Throughout (fun form => Q form.span) args) :
    Blames Q (functionName args) := by
  unfold functionName
  split
  · split
    · exact .throw rfl parts.head
    · exact .ok
  · exact .ok

theorem functionName_rest {args rest : List Form} {name : Option Symbol}
    (found : functionName args = .ok (name, rest)) : ∀ form ∈ rest, form ∈ args := by
  unfold functionName at found
  split at found
  · split at found <;> cases found
    exact fun _ => List.mem_cons_of_mem _
  · cases found
    exact fun _ => id

theorem Params.ofItems_blames {items : List Form}
    (parts : Throughout (fun form => Q form.span) items) : Blames Q (ofItems items) := by
  induction items with
  | nil => exact .ok
  | cons param after ih =>
    unfold ofItems
    split
    · split
      · exact .throw rfl parts.head
      · split
        · exact .ok
        · exact .throw rfl parts.tail.head
      · exact .throw rfl parts.tail.tail.head
    · split
      · exact .bind (ih parts.tail) fun _ _ => .ok
      · exact .throw rfl parts.head

theorem Params.parse_blames {limit : Nat} {items : List Form} {span : Span} (here : Q span)
    (parts : Throughout (fun form => Q form.span) items) : Blames Q (parse limit items span) := by
  refine .bind (ofItems_blames parts) fun params _ => ?_
  dsimp only
  split
  · exact .throw rfl here
  · exact .ok

theorem Signature.conflict?_family {earlier : List Signature} {added : Signature} {fault : Fault}
    (found : conflict? earlier added = some fault) : fault.kind.family = .analyze := by
  obtain ⟨signature, _, clash⟩ := List.exists_of_findSome?_eq_some found
  unfold clash? at clash
  split at clash
  · cases clash
    rfl
  all_goals
    split at clash <;> cases clash
    rfl

namespace ArityForm

theorem ofList_blames {form : Form} (here : Q form.span) : Blames Q (ofList form) := by
  unfold ofList
  split
  · exact .ok
  · exact .throw rfl here

theorem ofForms_blames {forms : List Form} {span : Span} (here : Q span)
    (parts : Throughout (fun form => Q form.span) forms) : Blames Q (ofForms forms span) := by
  have each {forms : List Form} (parts : Throughout (fun form => Q form.span) forms) :
      Blames Q (forms.mapM ofList) := by
    induction forms with
    | nil => exact .ok
    | cons form forms ih =>
      rw [List.mapM_cons]
      exact .bind (ofList_blames parts.head) fun _ _ => .bind (ih parts.tail) fun _ _ => .ok
  unfold ofForms
  split
  · exact .throw rfl here
  · exact .ok
  · exact each parts

/-- Every arity has a vector of parameters, which its body follows. -/
theorem ofForms_ok {P : Form → Prop} {forms : List Form} {span : Span} {arities : List ArityForm}
    (parts : Throughout P forms) (found : ofForms forms span = .ok arities) :
    ∀ arity ∈ arities, Throughout P (.vector arity.params arity.span :: arity.body) := by
  have each {forms : List Form} {arities : List ArityForm} (parts : Throughout P forms)
      (found : forms.mapM ofList = .ok arities) :
      ∀ arity ∈ arities, Throughout P (.vector arity.params arity.span :: arity.body) := by
    induction forms generalizing arities with
    | nil =>
      cases found
      nofun
    | cons form forms ih =>
      rw [List.mapM_cons] at found
      obtain ⟨arity, shaped, found⟩ := exists_of_bind_ok found
      obtain ⟨rest, others, found⟩ := exists_of_bind_ok found
      cases found
      refine List.forall_mem_cons.mpr ⟨?_, ih parts.tail others⟩
      have inside := parts.items (List.mem_cons_self ..)
      unfold ofList at shaped
      split at shaped <;> cases shaped
      exact inside
  unfold ofForms at found
  split at found
  · cases found
  · cases found
    simpa using parts
  · exact each parts found

end ArityForm

/-! ### Clauses -/

namespace TryParts

/-- The parts are items, or the items of a clause that is one. -/
structure Among (items : List Form) (parts : TryParts) : Prop where
  body : ∀ form ∈ parts.body, form ∈ items
  handler : ∀ clause ∈ parts.handler, clause.2 ∈ items ∧ clause.2.items = clause.1 ∧ clause.1 ≠ []
  cleanup : ∀ clause ∈ parts.cleanup, ∃ form ∈ items, form.items = clause ∧ clause ≠ []

theorem clause?_items {form : Form} {kind : ClauseKind} {items : List Form}
    (found : clause? form = some (kind, items)) : form.items = items ∧ items ≠ [] := by
  unfold clause? at found
  split at found
  · split at found
    · cases found
      exact ⟨rfl, nofun⟩
    · split at found <;> cases found
      exact ⟨rfl, nofun⟩
  · cases found

theorem add_blames (parts : TryParts) {item : Form} (here : Q item.span) :
    Blames Q (parts.add item) := by
  unfold add
  split
  · split
    · exact .throw rfl here
    · exact .ok
  · split
    · exact .throw rfl here
    · split
      · exact .ok
      · split
        · exact .throw rfl here
        · exact .ok

theorem Among.add {items : List Form} {item : Form} {parts after : TryParts}
    (among : Among items parts) (member : item ∈ items) (added : parts.add item = .ok after) :
    Among items after := by
  unfold TryParts.add at added
  split at added
  · split at added <;> cases added
    refine ⟨fun form inside => ?_, among.handler, among.cleanup⟩
    rcases List.mem_append.mp inside with earlier | last
    · exact among.body form earlier
    · exact List.mem_singleton.mp last ▸ member
  next kind held clause =>
    obtain ⟨same, inhabited⟩ := clause?_items clause
    split at added
    · cases added
    · split at added
      · cases added
        refine ⟨among.body, among.handler, ?_⟩
        rintro _ ⟨⟩
        exact ⟨item, member, same, inhabited⟩
      · split at added <;> cases added
        refine ⟨among.body, ?_, among.cleanup⟩
        rintro _ ⟨⟩
        exact ⟨member, same, inhabited⟩

theorem blames {items : List Form} (inside : Throughout (fun form => Q form.span) items) :
    Blames Q (ofItems items) := by
  suffices from_ : ∀ parts : TryParts, Blames Q (items.foldlM add parts) from from_ {}
  induction items with
  | nil => exact fun _ => .ok
  | cons item items ih =>
    intro parts
    rw [List.foldlM_cons]
    exact .bind (add_blames parts inside.head) fun after _ => ih inside.tail after

theorem among {items : List Form} {parts : TryParts} (found : ofItems items = .ok parts) :
    Among items parts := by
  have fold (rest : List Form) (before : TryParts) (inside : ∀ item ∈ rest, item ∈ items)
      (among : Among items before) (found : rest.foldlM add before = .ok parts) :
      Among items parts := by
    induction rest generalizing before with
    | nil =>
      cases found
      exact among
    | cons item rest ih =>
      rw [List.foldlM_cons] at found
      obtain ⟨between, added, found⟩ := exists_of_bind_ok found
      obtain ⟨member, inside⟩ := List.forall_mem_cons.mp inside
      exact ih between inside (among.add member added) found
  exact fold items {} (fun _ => id) ⟨nofun, nofun, nofun⟩ found

end TryParts

namespace CatchParts

theorem blames {items : List Form} {span : Span} (here : Q span) :
    Blames Q (ofItems items span) := by
  unfold ofItems
  split
  · split
    · exact .ok
    · exact .throw rfl here
  · exact .throw rfl here

/-- Before the body stand `catch`, the type and the name. -/
theorem ofItems_ok {items : List Form} {span : Span} {parts : CatchParts}
    (found : ofItems items span = .ok parts) :
    ∃ head type name, items = head :: type :: name :: parts.body := by
  unfold ofItems at found
  split at found
  · split at found <;> cases found
    exact ⟨_, _, _, rfl⟩
  · cases found

end CatchParts

theorem caseInteger_blames {part : CasePart} {form : Form} (here : Q form.span) :
    Blames Q (caseInteger part form) := by
  unfold caseInteger
  split
  · exact .ok
  · exact .throw rfl here

namespace CaseParts

theorem blames {items : List Form} {span : Span} (here : Q span)
    (parts : Throughout (fun form => Q form.span) items) : Blames Q (ofItems items span) := by
  unfold ofItems
  split
  · refine .bind (caseInteger_blames parts.tail.head) fun _ _ => ?_
    refine .bind (caseInteger_blames parts.tail.tail.head) fun _ _ => ?_
    split
    · exact .ok
    · exact .throw rfl (parts.here (by simp))
  · exact .throw rfl here

theorem ofItems_ok {items : List Form} {span : Span} {parts : CaseParts}
    (found : ofItems items span = .ok parts) :
    ∃ shift mask mapSpan,
      items = [parts.value, shift, mask, parts.fallback, .map parts.entries mapSpan] := by
  unfold ofItems at found
  split at found
  next value shift mask fallback branches =>
    obtain ⟨_, _, found⟩ := exists_of_bind_ok found
    obtain ⟨_, _, found⟩ := exists_of_bind_ok found
    cases branches with
    | map entries mapSpan =>
      cases found
      exact ⟨shift, mask, mapSpan, rfl⟩
    | _ => cases found
  · cases found

end CaseParts

end LispScope
