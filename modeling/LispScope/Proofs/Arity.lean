import LispScope.Proofs.Outcome

/-!
# Arities side by side

Main statement: `analyzeArities_ok_iff`. The arities of a function are analyzed one after the other,
and each is checked against the earlier ones. What this amounts to is that all of them can be analyzed
and that together they are `Unambiguous`, which says nothing about their order. If they are not, then
the first one that does not go with those before it is blamed.

The check looks at two arities at a time, so that the link between the two is the list in which no
two arities clash.
-/
namespace LispScope

namespace Signature

/-- No number of arguments is disputed between two fixed arities or between two variadic ones, and no
fixed arity reaches beyond where the variadic one begins. -/
structure Unambiguous (signatures : List Signature) : Prop where
  /-- At most one arity is variadic. -/
  variadic : (signatures.filter isVariadic).length ≤ 1
  /-- No two fixed arities have the same number of parameters. -/
  fixed : ((signatures.filter fun signature => !signature.isVariadic).map paramCount).Nodup
  /-- No fixed arity has more parameters than the variadic one has fixed parameters. -/
  below : ∀ fixed ∈ signatures, ∀ rest ∈ signatures, fixed.isVariadic = false →
    rest.isVariadic = true → fixed.paramCount ≤ rest.fixedCount

/-! ### Two arities -/

theorem clash?_eq_none_iff {left right : Signature} :
    left.clash? right = none ↔
      ¬ (left.isVariadic = true ∧ right.isVariadic = true) ∧
      (left.isVariadic = false → right.isVariadic = false → left.paramCount ≠ right.paramCount) ∧
      (left.isVariadic = false → right.isVariadic = true → left.paramCount ≤ right.fixedCount) ∧
      (right.isVariadic = false → left.isVariadic = true → right.paramCount ≤ left.fixedCount) := by
  obtain ⟨leftCount, leftRest⟩ := left
  obtain ⟨rightCount, rightRest⟩ := right
  cases leftRest <;> cases rightRest <;> simp [clash?, fixedCount]

theorem clash?_comm {left right : Signature} (apart : left.clash? right = none) :
    right.clash? left = none := by
  rw [clash?_eq_none_iff] at apart ⊢
  obtain ⟨variadic, fixed, below, above⟩ := apart
  exact ⟨fun both => variadic both.symm, fun first second => (fixed second first).symm, above, below⟩

/-- An arity is refused only for a fault of the function that it belongs to. -/
theorem kind_of_clash? {left right : Signature} {fault : Fault}
    (clash : left.clash? right = some fault) : fault.kind = .invalidFn := by
  unfold clash? at clash
  split at clash
  · cases clash
    rfl
  all_goals
    split at clash <;> cases clash
    rfl

/-! ### All arities -/

theorem conflict?_eq_none_iff {earlier : List Signature} {added : Signature} :
    conflict? earlier added = none ↔ ∀ signature ∈ earlier, signature.clash? added = none :=
  List.findSome?_eq_none_iff

theorem pairwise_false_iff {α : Type} {items : List α} :
    (items.Pairwise fun _ _ => False) ↔ items.length ≤ 1 := by
  match items with
  | [] => simp
  | [_] => simp
  | first :: second :: rest =>
    refine iff_of_false (fun apart => ?_) (by simp)
    exact (List.pairwise_cons.mp apart).1 second (List.mem_cons_self ..)

/-- Arities are unambiguous if no two of them clash. -/
theorem unambiguous_iff_pairwise {signatures : List Signature} :
    Unambiguous signatures ↔ signatures.Pairwise fun left right => left.clash? right = none := by
  simp only [clash?_eq_none_iff, List.pairwise_and_iff]
  constructor
  · rintro ⟨variadic, fixed, below⟩
    rw [← pairwise_false_iff, List.pairwise_filter] at variadic
    rw [List.Nodup, List.pairwise_map, List.pairwise_filter] at fixed
    refine ⟨?_, ?_, ?_, ?_⟩
    · exact variadic.imp fun apart both => apart both.1 both.2
    · exact fixed.imp fun distinct first second => distinct (by simp [first]) (by simp [second])
    · exact List.pairwise_of_forall_mem_list below
    · exact List.pairwise_of_forall_mem_list fun first member second member' =>
        below second member' first member
  · rintro ⟨variadic, fixed, below, above⟩
    refine ⟨?_, ?_, ?_⟩
    · rw [← pairwise_false_iff, List.pairwise_filter]
      exact variadic.imp fun apart first second => apart ⟨first, second⟩
    · rw [List.Nodup, List.pairwise_map, List.pairwise_filter]
      exact fixed.imp fun distinct first second => distinct (by simpa using first) (by simpa using second)
    · -- Whichever of the two comes first, the pair was looked at; no arity is both fixed and variadic.
      intro fixed member rest member' bounded unbounded
      refine List.Pairwise.forall_of_forall_of_flip ?_ below above member member' bounded unbounded
      intro signature _ bounded unbounded
      cases bounded.symm.trans unbounded

theorem unambiguous_nil : Unambiguous [] := unambiguous_iff_pairwise.mpr .nil

theorem Unambiguous.perm {signatures others : List Signature} (same : signatures.Perm others) :
    Unambiguous signatures ↔ Unambiguous others := by
  rw [unambiguous_iff_pairwise, unambiguous_iff_pairwise]
  exact same.pairwise_iff clash?_comm

theorem unambiguous_concat {earlier : List Signature} {added : Signature} :
    Unambiguous (earlier ++ [added]) ↔ Unambiguous earlier ∧ conflict? earlier added = none := by
  rw [unambiguous_iff_pairwise, unambiguous_iff_pairwise, conflict?_eq_none_iff,
    List.pairwise_append]
  simp

theorem Unambiguous.of_append {earlier later : List Signature}
    (unambiguous : Unambiguous (earlier ++ later)) : Unambiguous earlier := by
  rw [unambiguous_iff_pairwise] at unambiguous ⊢
  exact unambiguous.sublist (List.sublist_append_left ..)

/-- The check of each arity against the earlier ones accepts the unambiguous lists. -/
theorem unambiguous_iff_running {signatures : List Signature} :
    (∀ earlier added later, signatures = earlier ++ added :: later → conflict? earlier added = none) ↔
      Unambiguous signatures := by
  constructor
  · intro running
    induction signatures using List.reverseRecOn with
    | nil => exact unambiguous_nil
    | append_singleton earlier added ih =>
      refine unambiguous_concat.mpr ⟨ih fun first next later split => ?_, running _ _ [] rfl⟩
      exact running first next (later ++ [added]) (by simp [split])
  · rintro unambiguous earlier added later rfl
    rw [List.append_cons] at unambiguous
    exact (unambiguous_concat.mp unambiguous.of_append).2

end Signature

/-! ### The arities of a function -/

open AnalysisM

variable {σ : Type} {analyzer : Analyzer σ} {self : Recursion σ} {cx : Context}
  {name : Option Symbol} {uniqueName : String} {before after : State σ}

/-- The analysis of the arities by themselves, without the check. -/
def analyzeEachArity (analyzer : Analyzer σ) (self : Recursion σ) (cx : Context)
    (name : Option Symbol) (uniqueName : String) (forms : List ArityForm) :
    AnalysisM σ (List (Arity Expr)) :=
  forms.mapM (analyzeArity analyzer self cx name uniqueName)

theorem analyzeEachArity_cons_ok {form : ArityForm} {forms : List ArityForm}
    {arities : List (Arity Expr)} :
    analyzeEachArity analyzer self cx name uniqueName (form :: forms) before = .ok arities after ↔
      ∃ arity rest between, arities = arity :: rest ∧
        analyzeArity analyzer self cx name uniqueName form before = .ok arity between ∧
        analyzeEachArity analyzer self cx name uniqueName forms between = .ok rest after := by
  simp only [analyzeEachArity, List.mapM_cons, bind_ok, pure_ok]
  constructor
  · rintro ⟨arity, between, first, rest, _, others, rfl, rfl⟩
    exact ⟨arity, rest, between, rfl, first, others⟩
  · rintro ⟨arity, rest, between, rfl, first, others⟩
    exact ⟨arity, between, first, rest, after, others, rfl, rfl⟩

/-- An arity that conflicts with none of the earlier ones is left as it is. -/
theorem analyzeArities_cons_of_none {earlier : List Signature} {form : ArityForm}
    {forms : List ArityForm} {arity : Arity Expr} {between : State σ}
    (analyzed : analyzeArity analyzer self cx name uniqueName form before = .ok arity between)
    (apart : Signature.conflict? earlier arity.signature = none) :
    analyzeArities analyzer self cx name uniqueName earlier (form :: forms) before =
      ((analyzeArities analyzer self cx name uniqueName (earlier ++ [arity.signature]) forms) >>=
        fun rest => pure (arity :: rest)) between := by
  rw [analyzeArities, bind_of_ok analyzed]
  simp only [apart]

theorem analyzeArities_cons_of_some {earlier : List Signature} {form : ArityForm}
    {forms : List ArityForm} {arity : Arity Expr} {between : State σ} {fault : Fault}
    (analyzed : analyzeArity analyzer self cx name uniqueName form before = .ok arity between)
    (conflict : Signature.conflict? earlier arity.signature = some fault) :
    analyzeArities analyzer self cx name uniqueName earlier (form :: forms) before =
      .error (.refused (fault.diagnose form.span)) between := by
  rw [analyzeArities, bind_of_ok analyzed]
  simp only [conflict]
  rfl

/-- Arities are accepted if they can be analyzed and are unambiguous. -/
theorem analyzeArities_ok_iff {earlier : List Signature} {forms : List ArityForm}
    {arities : List (Arity Expr)} (proper : Signature.Unambiguous earlier) :
    analyzeArities analyzer self cx name uniqueName earlier forms before = .ok arities after ↔
      analyzeEachArity analyzer self cx name uniqueName forms before = .ok arities after ∧
        Signature.Unambiguous (earlier ++ arities.map Arity.signature) := by
  induction forms generalizing earlier before arities with
  | nil =>
    simp only [analyzeArities, analyzeEachArity, List.mapM_nil, pure_ok]
    constructor
    · rintro ⟨rfl, rfl⟩
      exact ⟨⟨rfl, rfl⟩, by simpa using proper⟩
    · exact And.left
  | cons form forms ih =>
    rw [analyzeEachArity_cons_ok]
    constructor
    · intro run
      obtain ⟨arity, between, analyzed, _⟩ := bind_ok.mp run
      cases conflict : Signature.conflict? earlier arity.signature with
      | some fault => cases (analyzeArities_cons_of_some analyzed conflict).symm.trans run
      | none =>
        rw [analyzeArities_cons_of_none analyzed conflict, bind_ok] at run
        obtain ⟨rest, last, run, finished⟩ := run
        obtain ⟨rfl, rfl⟩ := pure_ok.mp finished
        obtain ⟨others, unambiguous⟩ :=
          (ih (Signature.unambiguous_concat.mpr ⟨proper, conflict⟩)).mp run
        exact ⟨⟨arity, rest, between, rfl, analyzed, others⟩, by simpa using unambiguous⟩
    · rintro ⟨⟨arity, rest, between, rfl, analyzed, others⟩, unambiguous⟩
      rw [List.map_cons, List.append_cons] at unambiguous
      have extended := unambiguous.of_append
      obtain ⟨_, apart⟩ := Signature.unambiguous_concat.mp extended
      rw [analyzeArities_cons_of_none analyzed apart, bind_ok]
      exact ⟨rest, after, (ih extended).mpr ⟨others, unambiguous⟩, pure_ok.mpr ⟨rfl, rfl⟩⟩

/-- Of arities that can be analyzed but are ambiguous, the first one is blamed that does not go with
those before it. -/
theorem analyzeArities_refused {earlier : List Signature} {forms : List ArityForm}
    {arities : List (Arity Expr)} (proper : Signature.Unambiguous earlier)
    (each : analyzeEachArity analyzer self cx name uniqueName forms before = .ok arities after)
    (ambiguous : ¬ Signature.Unambiguous (earlier ++ arities.map Arity.signature)) :
    ∃ count form, ∃ (fault : Fault) (reached : State σ), forms[count]? = some form ∧
      fault.kind = .invalidFn ∧
      Signature.Unambiguous (earlier ++ (arities.take count).map Arity.signature) ∧
      ¬ Signature.Unambiguous (earlier ++ (arities.take (count + 1)).map Arity.signature) ∧
      analyzeArities analyzer self cx name uniqueName earlier forms before =
        .error (.refused (fault.diagnose form.span)) reached := by
  induction forms generalizing earlier before arities with
  | nil =>
    obtain ⟨rfl, rfl⟩ := pure_ok.mp each
    exact absurd (by simpa using proper) ambiguous
  | cons form forms ih =>
    obtain ⟨arity, rest, between, rfl, analyzed, others⟩ := analyzeEachArity_cons_ok.mp each
    cases conflict : Signature.conflict? earlier arity.signature with
    | some fault =>
      refine ⟨0, form, fault, between, rfl, ?_, by simpa using proper, ?_,
        analyzeArities_cons_of_some analyzed conflict⟩
      · obtain ⟨_, _, clash⟩ := List.exists_of_findSome?_eq_some conflict
        exact Signature.kind_of_clash? clash
      · simp [Signature.unambiguous_concat, conflict]
    | none =>
      have extended := Signature.unambiguous_concat.mpr ⟨proper, conflict⟩
      rw [List.map_cons, List.append_cons] at ambiguous
      obtain ⟨count, blamed, fault, reached, found, kind, good, bad, run⟩ :=
        ih extended others ambiguous
      refine ⟨count + 1, blamed, fault, reached, found, kind, by simpa using good,
        by simpa using bad, ?_⟩
      rw [analyzeArities_cons_of_none analyzed conflict]
      exact bind_of_error run

end LispScope
