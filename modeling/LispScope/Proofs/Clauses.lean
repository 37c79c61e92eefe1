import LispScope.Host.Namespaces
import LispScope.Proofs.Outcome
import LispScope.Proofs.Shape

/-!
# The clauses of a `try`

Main statement: `analyzeTry_grammar`. The items after `try` have to be forms of a body, at most one
`catch` clause and at most one `finally` clause, in this order. If they are, then these are the parts
that are analyzed; if they are not, then the `try` is refused before anything is done, at the first item
that no such items can have after those before it.

The scan over the items goes from one well-formed beginning to the next: `add_cases` says what one more
item does to it, and `foldlM_cases` what any number of items do.
-/
namespace LispScope

open AnalysisM

/-- A list that begins with the unqualified symbol of the given name. -/
def Form.IsClause (name : String) (form : Form) : Prop :=
  ∃ mark items span, form = .list (.symbol (.simple name) mark :: items) span

/-- How the items after `try` fall into parts. -/
structure TryShape where
  body : List Form
  /-- The `catch` clause. -/
  handler : Option Form
  /-- The `finally` clause. -/
  cleanup : Option Form

namespace TryShape

/-- The items, in their order. -/
def items (shape : TryShape) : List Form :=
  shape.body ++ shape.handler.toList ++ shape.cleanup.toList

/-- Every part is what it has to be. -/
structure Proper (shape : TryShape) : Prop where
  body : ∀ form ∈ shape.body, ¬ form.IsClause "catch" ∧ ¬ form.IsClause "finally"
  handler : ∀ clause ∈ shape.handler, clause.IsClause "catch"
  cleanup : ∀ clause ∈ shape.cleanup, clause.IsClause "finally"

/-- What the scan hands out for the parts. -/
def parts (shape : TryShape) : TryParts where
  body := shape.body
  handler := shape.handler.map fun clause => (clause.items, clause)
  cleanup := shape.cleanup.map Form.items

end TryShape

/-- The items of a well-formed `try`. -/
def IsTry (items : List Form) : Prop := ∃ shape : TryShape, shape.Proper ∧ shape.items = items

/-- Items with which those of a well-formed `try` may begin. -/
def BeginsTry (items : List Form) : Prop := ∃ more, IsTry (items ++ more)

/-! ### Kinds of items -/

namespace TryParts

theorem isNamed_iff {name : String} {form : Form} :
    form.isNamed name = true ↔ ∃ mark, form = .symbol (.simple name) mark := by
  constructor
  · intro named
    match form with
    | .atom (.symbol symbol) mark =>
      obtain rfl : symbol = .simple name := by simpa [Form.isNamed, Form.symbol?] using named
      exact ⟨mark, rfl⟩
  · rintro ⟨mark, rfl⟩
    simp [Form.isNamed, Form.symbol?]

theorem isNamed_cleanup_of_handler {head : Form} (named : head.isNamed "catch" = true) :
    head.isNamed "finally" = false := by
  obtain ⟨mark, rfl⟩ := isNamed_iff.mp named
  rfl

theorem clause?_eq_cleanup {form : Form} {items : List Form} :
    clause? form = some (.cleanup, items) ↔ form.IsClause "finally" ∧ form.items = items := by
  constructor
  · intro found
    refine ⟨?_, (clause?_items found).1⟩
    unfold clause? at found
    split at found
    next head rest span =>
      split at found
      next named =>
        obtain ⟨mark, rfl⟩ := isNamed_iff.mp named
        exact ⟨mark, rest, span, rfl⟩
      next => split at found <;> cases found
    next => cases found
  · rintro ⟨⟨mark, rest, span, rfl⟩, rfl⟩
    simp [clause?, isNamed_iff, Form.items]

theorem clause?_eq_handler {form : Form} {items : List Form} :
    clause? form = some (.handler, items) ↔ form.IsClause "catch" ∧ form.items = items := by
  constructor
  · intro found
    refine ⟨?_, (clause?_items found).1⟩
    unfold clause? at found
    split at found
    next head rest span =>
      split at found
      next => cases found
      next =>
        split at found
        next named =>
          obtain ⟨mark, rfl⟩ := isNamed_iff.mp named
          exact ⟨mark, rest, span, rfl⟩
        next => cases found
    next => cases found
  · rintro ⟨⟨mark, rest, span, rfl⟩, rfl⟩
    have named : Form.isNamed "catch" (.symbol (.simple "catch") mark) = true :=
      isNamed_iff.mpr ⟨mark, rfl⟩
    simp [clause?, named, isNamed_cleanup_of_handler named, Form.items]

theorem clause?_eq_none {form : Form} :
    clause? form = none ↔ ¬ form.IsClause "catch" ∧ ¬ form.IsClause "finally" := by
  constructor
  · intro plain
    constructor
    · intro clause
      cases plain.symm.trans (clause?_eq_handler.mpr ⟨clause, rfl⟩)
    · intro clause
      cases plain.symm.trans (clause?_eq_cleanup.mpr ⟨clause, rfl⟩)
  · rintro ⟨handler, cleanup⟩
    match found : clause? form with
    | none => rfl
    | some (.handler, items) => exact absurd (clause?_eq_handler.mp found).1 handler
    | some (.cleanup, items) => exact absurd (clause?_eq_cleanup.mp found).1 cleanup

/-- The place of an item among the parts of a `try`. -/
def rank (form : Form) : Nat :=
  match clause? form with
  | none => 0
  | some (.handler, _) => 1
  | some (.cleanup, _) => 2

/-- Whether an item may stand before another one: only forms of the body may follow their like. -/
def MayPrecede (first second : Form) : Prop :=
  rank first < rank second ∨ rank first = 0 ∧ rank second = 0

end TryParts

open TryParts

namespace TryShape.Proper

variable {shape : TryShape}

theorem rank_body (proper : shape.Proper) : ∀ form ∈ shape.body, rank form = 0 := by
  intro form member
  rw [rank, clause?_eq_none.mpr (proper.body form member)]

theorem rank_handler (proper : shape.Proper) : ∀ clause ∈ shape.handler, rank clause = 1 := by
  intro clause member
  rw [rank, clause?_eq_handler.mpr ⟨proper.handler clause member, rfl⟩]

theorem rank_cleanup (proper : shape.Proper) : ∀ clause ∈ shape.cleanup, rank clause = 2 := by
  intro clause member
  rw [rank, clause?_eq_cleanup.mpr ⟨proper.cleanup clause member, rfl⟩]

/-- The items of a well-formed `try` are in order. -/
theorem pairwise (proper : shape.Proper) : shape.items.Pairwise MayPrecede := by
  have alone (clause : Option Form) : clause.toList.Pairwise MayPrecede := by
    cases clause <;> simp
  rw [TryShape.items, List.pairwise_append, List.pairwise_append]
  refine ⟨⟨?_, alone _, ?_⟩, alone _, ?_⟩
  · refine List.pairwise_of_forall_mem_list fun first member second member' => ?_
    exact .inr ⟨proper.rank_body first member, proper.rank_body second member'⟩
  · intro form member clause held
    left
    rw [proper.rank_body form member, proper.rank_handler clause (Option.mem_toList.mp held)]
    decide
  · intro form member clause held
    left
    rw [proper.rank_cleanup clause (Option.mem_toList.mp held)]
    rcases List.mem_append.mp member with inside | handled
    · rw [proper.rank_body form inside]
      decide
    · rw [proper.rank_handler form (Option.mem_toList.mp handled)]
      decide

end TryShape.Proper

/-- After a clause no well-formed `try` goes on with an item whose place is not behind it. -/
theorem not_beginsTry {items : List Form} {item : Form} (clause : Form) (member : clause ∈ items)
    (last : rank clause ≠ 0) (misplaced : rank item ≤ rank clause) :
    ¬ BeginsTry (items ++ [item]) := by
  rintro ⟨more, shape, proper, same⟩
  have ordered := proper.pairwise
  rw [same, List.append_assoc, List.pairwise_append] at ordered
  rcases ordered.2.2 clause member item (by simp) with below | ⟨plain, _⟩
  · omega
  · exact last plain

theorem TryParts.rank_le_two (form : Form) : rank form ≤ 2 := by
  unfold rank
  split <;> omega

/-! ### One more item -/

namespace TryShape.Proper

variable {shape : TryShape}

/-- What one more item does: it extends the shape, or it is refused since nothing well-formed goes on
like this. -/
theorem add_cases (proper : shape.Proper) (item : Form) :
    (∃ next : TryShape, next.Proper ∧ next.items = shape.items ++ [item] ∧
      shape.parts.add item = .ok next.parts) ∨
    (¬ BeginsTry (shape.items ++ [item]) ∧ ∃ fault : Fault, fault.kind = .invalidTry ∧
      shape.parts.add item = .error (fault.diagnose item.span)) := by
  obtain ⟨body, handler, cleanup⟩ := shape
  unfold TryParts.add
  cases cleanup with
  | some last =>
    -- Whatever comes after `finally`, its place is not behind it.
    have two : rank last = 2 := proper.rank_cleanup last rfl
    right
    refine ⟨not_beginsTry last (by simp [TryShape.items]) (by omega) ?_, ?_⟩
    · rw [two]
      exact rank_le_two item
    · cases found : clause? item with
      | none => exact ⟨.bodyAfterClause, rfl, by simp [TryShape.parts]; rfl⟩
      | some clause => exact ⟨.finallyNotLast, rfl, rfl⟩
  | none =>
    match found : clause? item with
    | some (.cleanup, items) =>
      obtain ⟨clause, rfl⟩ := clause?_eq_cleanup.mp found
      left
      refine ⟨⟨body, handler, some item⟩, ⟨proper.body, proper.handler, ?_⟩, ?_, rfl⟩
      · rintro _ ⟨⟩
        exact clause
      · simp [TryShape.items]
    | some (.handler, items) =>
      obtain ⟨clause, rfl⟩ := clause?_eq_handler.mp found
      have one : rank item = 1 := by rw [rank, found]
      cases handler with
      | some first =>
        have same : rank first = 1 := proper.rank_handler first rfl
        right
        refine ⟨not_beginsTry first (by simp [TryShape.items]) (by omega) (by omega), ?_⟩
        exact ⟨.secondCatch, rfl, rfl⟩
      | none =>
        left
        refine ⟨⟨body, some item, none⟩, ⟨proper.body, ?_, proper.cleanup⟩, ?_, rfl⟩
        · rintro _ ⟨⟩
          exact clause
        · simp [TryShape.items]
    | none =>
      have zero : rank item = 0 := by rw [rank, found]
      cases handler with
      | some first =>
        have one : rank first = 1 := proper.rank_handler first rfl
        right
        refine ⟨not_beginsTry first (by simp [TryShape.items]) (by omega) (by omega), ?_⟩
        exact ⟨.bodyAfterClause, rfl, rfl⟩
      | none =>
        left
        refine ⟨⟨body ++ [item], none, none⟩, ⟨?_, proper.handler, proper.cleanup⟩, ?_, rfl⟩
        · refine List.forall_mem_append.mpr ⟨proper.body, ?_⟩
          simpa using clause?_eq_none.mp found
        · simp [TryShape.items]

/-- What any number of items do: they extend the shape, or the scan stops at the first one that nothing
well-formed goes on with. -/
theorem foldlM_cases (proper : shape.Proper) (items : List Form) :
    (∃ next : TryShape, next.Proper ∧ next.items = shape.items ++ items ∧
      items.foldlM TryParts.add shape.parts = .ok next.parts) ∨
    ∃ before item after, ∃ fault : Fault, items = before ++ item :: after ∧
      IsTry (shape.items ++ before) ∧ ¬ BeginsTry (shape.items ++ before ++ [item]) ∧
      fault.kind = .invalidTry ∧
      items.foldlM TryParts.add shape.parts = .error (fault.diagnose item.span) := by
  induction items generalizing shape with
  | nil => exact .inl ⟨shape, proper, by simp, rfl⟩
  | cons item items ih =>
    rw [List.foldlM_cons]
    rcases proper.add_cases item with ⟨next, proper', grown, added⟩ | ⟨stuck, fault, kind, failed⟩
    · rw [added]
      rcases ih proper' with ⟨last, proper'', grown', run⟩ |
        ⟨before, blamed, after, fault, split, sound, stuck, kind, run⟩
      · exact .inl ⟨last, proper'', by simp [grown', grown], run⟩
      · refine .inr ⟨item :: before, blamed, after, fault, by simp [split], ?_, ?_, kind, run⟩
        · simpa [grown] using sound
        · simpa [grown] using stuck
    · rw [failed]
      refine .inr ⟨[], item, items, fault, rfl, ⟨shape, proper, by simp⟩, ?_, kind, rfl⟩
      simpa using stuck

end TryShape.Proper

/-! ### The whole scan -/

/-- The parts of a shape are told apart by the places of its items. -/
theorem TryShape.Proper.filter_items {shape : TryShape} (proper : shape.Proper) (place : Nat) :
    shape.items.filter (rank · = place) =
      (if place = 0 then shape.body else []) ++ (if place = 1 then shape.handler.toList else []) ++
        if place = 2 then shape.cleanup.toList else [] := by
  have part {forms : List Form} {own : Nat} (all : ∀ form ∈ forms, rank form = own) :
      forms.filter (rank · = place) = if place = own then forms else [] := by
    split
    next same =>
      refine List.filter_eq_self.mpr fun form member => ?_
      simp [all form member, same]
    next other =>
      refine List.filter_eq_nil_iff.mpr fun form member => ?_
      simp [all form member, Ne.symm other]
  rw [TryShape.items, List.filter_append, List.filter_append, part proper.rank_body,
    part fun clause member => proper.rank_handler clause (Option.mem_toList.mp member),
    part fun clause member => proper.rank_cleanup clause (Option.mem_toList.mp member)]

/-- Items fall into parts in one way at most. -/
theorem TryShape.Proper.unique {shape other : TryShape} (proper : shape.Proper)
    (proper' : other.Proper) (same : shape.items = other.items) : shape = other := by
  have clause {first second : Option Form} (same : first.toList = second.toList) : first = second := by
    cases first <;> cases second <;> simp_all
  have parts (place : Nat) := (proper.filter_items place).symm.trans
    ((congrArg (List.filter (rank · = place)) same).trans (proper'.filter_items place))
  obtain ⟨body, handler, cleanup⟩ := shape
  obtain ⟨body', handler', cleanup'⟩ := other
  obtain rfl : body = body' := by simpa using parts 0
  obtain rfl : handler = handler' := clause (by simpa using parts 1)
  obtain rfl : cleanup = cleanup' := clause (by simpa using parts 2)
  rfl

/-- The scan over all items, from the beginning. -/
theorem TryParts.ofItems_cases (items : List Form) :
    (∃ shape : TryShape, shape.Proper ∧ shape.items = items ∧ ofItems items = .ok shape.parts) ∨
    ∃ before item after, ∃ fault : Fault, items = before ++ item :: after ∧ IsTry before ∧
      ¬ BeginsTry (before ++ [item]) ∧ fault.kind = .invalidTry ∧
      ofItems items = .error (fault.diagnose item.span) := by
  have start : TryShape.Proper ⟨[], none, none⟩ := ⟨nofun, nofun, nofun⟩
  exact start.foldlM_cases items

/-- The items after `try` are accepted exactly if they are the forms of a body, at most one `catch`
clause and at most one `finally` clause, in this order. Then these parts, and nothing else, are analyzed
one after the other. Else the `try` is refused, with the state as it was and whatever way there is to
analyze other forms, at the first item with which nothing well-formed goes on. -/
theorem analyzeTry_grammar {σ : Type} (self : Recursion σ) (cx : Context) (args : List Form)
    (span : Span) :
    ((∃ parts, TryParts.ofItems args = .ok parts) ↔ IsTry args) ∧
    (∀ shape : TryShape, shape.Proper → shape.items = args →
      TryParts.ofItems args = .ok shape.parts ∧
      analyzeTry self cx args span = do
        let frame ← openFrame cx .guarded
        let body ← analyzeBody self (cx.inFrame frame) shape.body span
        let handler ← shape.handler.mapM fun clause => analyzeCatch self cx clause.items clause
        let cleanup ← shape.cleanup.mapM fun clause => analyzeFinally self cx clause.items span
        return cx.expr (.guarded body frame handler cleanup) span) ∧
    (¬ IsTry args → ∃ before item after, ∃ diagnostic : Diagnostic,
      args = before ++ item :: after ∧ IsTry before ∧ ¬ BeginsTry (before ++ [item]) ∧
      diagnostic.kind.id = "analyze/invalid-try" ∧ diagnostic.span = item.span ∧
      TryParts.ofItems args = .error diagnostic ∧
      ∀ state, analyzeTry self cx args span state = .error (.refused diagnostic) state) := by
  have accepted (shape : TryShape) (proper : shape.Proper) (same : shape.items = args) :
      TryParts.ofItems args = .ok shape.parts := by
    rcases TryParts.ofItems_cases args with ⟨found, proper', same', scanned⟩ |
      ⟨before, item, after, _, rfl, _, stuck, _⟩
    · rw [proper.unique proper' (same.trans same'.symm), scanned]
    · exact absurd ⟨after, shape, proper, by simp [same]⟩ stuck
  refine ⟨⟨fun ⟨parts, scanned⟩ => ?_, fun ⟨shape, proper, same⟩ => ⟨_, accepted shape proper same⟩⟩,
    fun shape proper same => ⟨accepted shape proper same, ?_⟩, fun improper => ?_⟩
  · rcases TryParts.ofItems_cases args with ⟨shape, proper, same, _⟩ | ⟨_, _, _, _, _, _, _, _, failed⟩
    · exact ⟨shape, proper, same⟩
    · cases scanned.symm.trans failed
  · rw [analyzeTry, accepted shape proper same]
    obtain ⟨body, handler, cleanup⟩ := shape
    cases handler <;> cases cleanup <;> rfl
  · rcases TryParts.ofItems_cases args with ⟨shape, proper, same, _⟩ |
      ⟨before, item, after, fault, split, sound, stuck, kind, failed⟩
    · exact absurd ⟨shape, proper, same⟩ improper
    · refine ⟨before, item, after, fault.diagnose item.span, split, sound, stuck, ?_, rfl, failed,
        fun state => ?_⟩
      · change fault.kind.id = _
        rw [kind]
        decide
      · rw [analyzeTry, failed]
        rfl

/-- The items of `(try nil (catch E e) (finally nil))`, in parts. -/
def sheltered : TryShape :=
  let symbol (name : String) : Form := .symbol (.simple name) .synthetic
  { body := [.atom .nil .synthetic]
    handler := some (.list [symbol "catch", symbol "E", symbol "e"] .synthetic)
    cleanup := some (.list [symbol "finally", .atom .nil .synthetic] .synthetic) }

/-- The items of `(try (finally) nil)`. -/
def belated : List Form :=
  [.list [.symbol (.simple "finally") ⟨6, 13, 1, 7, none⟩] ⟨5, 14, 1, 6, none⟩,
    .atom .nil ⟨15, 18, 1, 16, none⟩]

/-- `sheltered` is taken apart as it is put together, and `belated` is refused at its second item. -/
theorem sheltered_grammar :
    TryParts.ofItems sheltered.items = .ok sheltered.parts ∧ ¬ IsTry belated ∧
    ∃ diagnostic : Diagnostic, diagnostic.kind.id = "analyze/invalid-try" ∧
      diagnostic.span = ⟨15, 18, 1, 16, none⟩ ∧
      ∀ state, analyzeTry (analyzeForm ⟨Namespaces.host, .standard⟩ 3) .topLevel belated
        ⟨0, 19, 1, 1, none⟩ state = .error (.refused diagnostic) state := by
  let self := analyzeForm ⟨Namespaces.host, .standard⟩ 3
  have improper : ¬ IsTry belated := by
    rw [← (analyzeTry_grammar self .topLevel belated .synthetic).1]
    rintro ⟨_, ⟨⟩⟩
  refine ⟨((analyzeTry_grammar self .topLevel _ .synthetic).2.1 sheltered ?_ rfl).1, improper, ?_⟩
  · refine ⟨?_, ?_, ?_⟩
    · rintro _ (_ | ⟨_, ⟨⟩⟩)
      exact ⟨nofun, nofun⟩
    · rintro _ ⟨⟩
      exact ⟨_, _, _, rfl⟩
    · rintro _ ⟨⟩
      exact ⟨_, _, _, rfl⟩
  · obtain ⟨before, item, after, diagnostic, split, _, stuck, kind, span, _, refused⟩ :=
      (analyzeTry_grammar self .topLevel belated ⟨0, 19, 1, 1, none⟩).2.2 improper
    refine ⟨diagnostic, kind, ?_, refused⟩
    -- The first item may begin a `try`, so that it is the second one that is blamed.
    match before with
    | [] =>
      obtain ⟨rfl, _⟩ := List.cons.inj split
      refine absurd ⟨[], ⟨[], none, some _⟩, ⟨nofun, nofun, ?_⟩, rfl⟩ stuck
      rintro _ ⟨⟩
      exact ⟨_, _, _, rfl⟩
    | [_] =>
      obtain ⟨rfl, _⟩ := List.cons.inj (List.cons.inj split).2
      exact span
    | _ :: _ :: _ => simp [belated] at split

end LispScope
