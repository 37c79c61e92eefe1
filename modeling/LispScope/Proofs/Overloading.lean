import LispScope.Host.Namespaces
import LispScope.Proofs.Enactment
import LispScope.Proofs.Occurrence

/-!
# Overloading

Main statement: `analyzeFunction_overloads`. It says which parameter vectors are accepted and what is
read from them, which lists of arities are accepted, whatever their order, and what follows for the
functions of a result: whatever the number of arguments, at most one fixed arity and at most one
variadic one takes them, and both do only where the variadic one begins.
-/
namespace LispScope

open AnalysisM

/-! ### Parameter vectors -/

/-- A form that names a parameter: an unqualified symbol other than `&`. -/
def Form.NamesParam (form : Form) (name : Symbol) : Prop :=
  form.symbol? = some name ∧ name.isQualified = false ∧ name ≠ .simple "&"

theorem Form.localName?_eq_some {form : Form} {name : Symbol} :
    form.localName? = some name ↔ form.symbol? = some name ∧ name.isQualified = false := by
  simp [localName?, Option.filter_eq_some_iff]

theorem Form.namesParam_iff {form : Form} {name : Symbol} :
    form.NamesParam name ↔ form.localName? = some name ∧ form.isNamed "&" = false := by
  rw [localName?_eq_some, NamesParam, and_assoc]
  refine and_congr_right fun named => and_congr_right fun _ => ?_
  simp [isNamed, named]

namespace Params

/-- How parameters are written: one form for each fixed one, and `&` before that of the others. -/
inductive Written : Params → List Form → Prop
  | fixed (each : List.Forall₂ Form.NamesParam items bound) : Written ⟨bound, none⟩ items
  | rest (each : List.Forall₂ Form.NamesParam items bound) (mark : form.isNamed "&" = true)
      (last : Form.NamesParam other name) : Written ⟨bound, some name⟩ (items ++ [form, other])

theorem restName?_eq_some {form : Form} {name : Symbol} :
    restName? form = some name ↔ form.NamesParam name := by
  rw [restName?, Option.filter_eq_some_iff, Form.localName?_eq_some, Form.NamesParam, and_assoc]
  refine and_congr_right fun _ => and_congr_right fun plain => ?_
  obtain ⟨_ | ns, name⟩ := name
  · simp [Symbol.simple]
  · cases plain

theorem Written.cons {form : Form} {name : Symbol} {params : Params} {items : List Form}
    (named : form.NamesParam name) (written : params.Written items) :
    Written { params with fixed := name :: params.fixed } (form :: items) := by
  cases written with
  | fixed each => exact .fixed (.cons named each)
  | rest each mark last => exact .rest (.cons named each) mark last

/-- Reading the parameters looks at one form after the other, and at all that is left after `&`. -/
theorem ofItems_written {items : List Form} {params : Params} (read : ofItems items = .ok params) :
    params.Written items := by
  induction items generalizing params with
  | nil =>
    cases read
    exact .fixed .nil
  | cons item items ih =>
    unfold ofItems at read
    split at read
    next mark =>
      rcases items with _ | ⟨form, _ | ⟨extra, others⟩⟩
      · cases read
      · cases named : restName? form with
        | none => simp [named, throw, throwThe, MonadExceptOf.throw] at read
        | some name =>
          simp only [named, pure, Except.pure, Except.ok.injEq] at read
          subst read
          exact .rest .nil mark (restName?_eq_some.mp named)
      · cases read
    next unmarked =>
      cases named : item.localName? with
      | none => simp [named, throw, throwThe, MonadExceptOf.throw] at read
      | some name =>
        simp only [named] at read
        cases others : ofItems items with
        | error diagnostic => simp [others, bind, Except.bind] at read
        | ok rest =>
          simp only [others, bind, Except.bind, pure, Except.pure, Except.ok.injEq] at read
          subst read
          exact .cons (Form.namesParam_iff.mpr ⟨named, by simpa using unmarked⟩) (ih others)

theorem ofItems_cons {form : Form} {name : Symbol} {items : List Form} {params : Params}
    (named : form.NamesParam name) (read : ofItems items = .ok params) :
    ofItems (form :: items) = .ok { params with fixed := name :: params.fixed } := by
  obtain ⟨named, unmarked⟩ := Form.namesParam_iff.mp named
  simp [ofItems, named, unmarked, read, bind, Except.bind, pure, Except.pure]

theorem Written.ofItems {items : List Form} {params : Params} (written : params.Written items) :
    Params.ofItems items = .ok params := by
  cases written with
  | fixed each =>
    induction each with
    | nil => rfl
    | cons named _ ih => exact ofItems_cons named ih
  | rest each mark last =>
    induction each with
    | nil => simp [Params.ofItems, mark, restName?_eq_some.mpr last, pure, Except.pure]
    | cons named _ ih => exact ofItems_cons named ih

/-- A parameter vector is accepted if it is written as parameters are and not too long. -/
theorem parse_eq_ok_iff {limit : Nat} {items : List Form} {span : Span} {params : Params} :
    parse limit items span = .ok params ↔ params.Written items ∧ params.names.length ≤ limit := by
  constructor
  · intro parsed
    cases read : ofItems items with
    | error diagnostic => simp [parse, read, bind, Except.bind] at parsed
    | ok found =>
      simp only [parse, read, bind, Except.bind] at parsed
      split at parsed
      · cases parsed
      next short =>
        cases parsed
        exact ⟨ofItems_written read, Nat.le_of_not_lt short⟩
  · rintro ⟨written, short⟩
    simp [parse, written.ofItems, bind, Except.bind, Nat.not_lt.mpr short, pure, Except.pure]

/-- How many arguments the parameters take. -/
def signature (params : Params) : Signature := ⟨params.names.length, params.isVariadic⟩

end Params

/-! ### The order of arities -/

variable {σ : Type} {analyzer : Analyzer σ} {self : Recursion σ} {cx : Context}
  {name : Option Symbol} {uniqueName : String} {before after : State σ}

/-- An arity takes what its parameter vector says, whatever its body and its surroundings. -/
theorem analyzeArity_signature {form : ArityForm} {arity : Arity Expr}
    (run : analyzeArity analyzer self cx name uniqueName form before = .ok arity after) :
    (Params.parse analyzer.config.maxParams form.params form.span).map Params.signature =
      .ok arity.signature := by
  simp only [analyzeArity, bind_ok, settle_ok, pure_ok] at run
  obtain ⟨params, _, ⟨parsed, rfl⟩, frame, _, _, _, _, _, bindings, _, bound, body, _, _, rfl, rfl⟩ :=
    run
  obtain ⟨_, same⟩ : Enacts analyzer.config frame _ _ _ ∧ _ :=
    bindParams_enacts (parse_plain parsed) bound
  rw [parsed, Except.map, Arity.signature, Params.signature, same]

theorem analyzeEachArity_signatures {forms : List ArityForm} {arities : List (Arity Expr)}
    (each : analyzeEachArity analyzer self cx name uniqueName forms before = .ok arities after) :
    forms.map (fun form =>
        (Params.parse analyzer.config.maxParams form.params form.span).map Params.signature) =
      (arities.map Arity.signature).map .ok := by
  induction forms generalizing before arities with
  | nil =>
    obtain ⟨rfl, rfl⟩ := pure_ok.mp each
    rfl
  | cons form forms ih =>
    obtain ⟨arity, rest, between, rfl, first, others⟩ := analyzeEachArity_cons_ok.mp each
    rw [List.map_cons, analyzeArity_signature first, ih others]
    rfl

/-- The same arities in another order have the same signatures in another order. -/
theorem analyzeEachArity_perm {forms forms' : List ArityForm} {arities arities' : List (Arity Expr)}
    {before' after' : State σ} (same : forms.Perm forms')
    (each : analyzeEachArity analyzer self cx name uniqueName forms before = .ok arities after)
    (each' : analyzeEachArity analyzer self cx name uniqueName forms' before' = .ok arities' after') :
    (arities.map Arity.signature).Perm (arities'.map Arity.signature) := by
  have images := same.map fun form : ArityForm =>
    (Params.parse analyzer.config.maxParams form.params form.span).map Params.signature
  rw [analyzeEachArity_signatures each, analyzeEachArity_signatures each'] at images
  exact (List.map_perm_map_iff fun _ _ equal => Except.ok.inj equal).mp images

/-! ### Calls -/

/-- Whether an arity takes a number of arguments: a fixed one as many as it has parameters, a variadic
one as many as it has fixed parameters or more. -/
def Arity.takes (arity : Arity ε) (count : Nat) : Bool :=
  if arity.isVariadic then arity.fixedCount ≤ count else arity.params.length = count

/-- What a call with a number of arguments finds in a function. -/
structure Arity.Selects (arities : List (Arity ε)) (count : Nat) : Prop where
  fixed : (arities.filter fun arity => !arity.isVariadic && arity.takes count).length ≤ 1
  variadic : (arities.filter fun arity => arity.isVariadic && arity.takes count).length ≤ 1
  both : ∀ fixed ∈ arities, ∀ rest ∈ arities, fixed.isVariadic = false → rest.isVariadic = true →
    fixed.takes count = true → rest.takes count = true → count = rest.fixedCount

theorem Signature.Unambiguous.selects {arities : List (Arity Expr)}
    (unambiguous : Signature.Unambiguous (arities.map Arity.signature)) (count : Nat) :
    Arity.Selects arities count := by
  obtain ⟨variadic, fixed, below⟩ := unambiguous
  constructor
  case fixed =>
    -- All that are left have the same number of parameters, which no two fixed arities have.
    rw [List.filter_map, List.map_map, List.Nodup, List.pairwise_map, List.pairwise_filter] at fixed
    rw [← pairwise_false_iff, List.pairwise_filter]
    refine fixed.imp fun {left right} distinct first second => ?_
    simp only [Bool.and_eq_true, Bool.not_eq_true'] at first second
    apply distinct
    · simp [Arity.signature, first.1]
    · simp [Arity.signature, second.1]
    · change left.params.length = right.params.length
      rw [Arity.takes, first.1] at first
      rw [Arity.takes, second.1] at second
      exact (of_decide_eq_true first.2).trans (of_decide_eq_true second.2).symm
  case variadic =>
    rw [List.filter_map, List.length_map] at variadic
    refine le_trans (List.Sublist.length_le ?_) variadic
    exact List.monotone_filter_right _ fun arity both => (Bool.and_eq_true_iff.mp both).1
  case both =>
    intro fixed member rest member' bounded unbounded takes takes'
    have reaches := below _ (List.mem_map_of_mem member) _ (List.mem_map_of_mem member') bounded
      unbounded
    change fixed.params.length ≤ rest.fixedCount at reaches
    simp only [Arity.takes, bounded, unbounded, if_true, Bool.false_eq_true, if_false,
      decide_eq_true_eq] at takes takes'
    omega

/-! ### Functions of a result -/

theorem Enacts.fits {config : Config} {frame : FrameId} {steps : List Step} {before after : Store}
    (run : Enacts config frame steps before after) :
    ∀ found ∈ reached steps, ∃ place, found.Fits config place := by
  induction run with
  | done => simp
  | bind _ _ ih | count _ _ ih => simpa using ih
  | block _ _ _ _ inside rest =>
    rw [reached_block]
    exact List.forall_mem_append.mpr ⟨inside, rest⟩
  | visit fits _ _ _ _ follows rest =>
    rw [reached_visit]
    exact List.forall_mem_cons.mpr ⟨⟨_, fits⟩, List.forall_mem_append.mpr ⟨follows, rest⟩⟩

theorem Session.analyze_unambiguous {depth : Nat} {form : Form} {session : Session σ}
    {analysis : Analysis} {found : Expr} {uniqueName : String} {arities : List (Arity Expr)}
    (analyzed : ((Session.analyze analyzer depth form).run session).1 = .ok analysis)
    (member : found ∈ analysis.expr.walk) (function : found.node = .function name uniqueName arities) :
    Signature.Unambiguous (arities.map Arity.signature) := by
  obtain ⟨names, run⟩ := Session.analyze_enacts analyzed
  have walked : found ∈ reached [.visit .operand analysis.expr] := by
    simpa [reached, visited] using member
  obtain ⟨place, _, unambiguous⟩ := run.fits found walked
  rw [function] at unambiguous
  exact unambiguous

/-- A parameter vector is accepted exactly if it holds unqualified symbols other than `&`, with `&`
before the last one or not at all, and no more of them than allowed; they are the parameters, in their
order. Arities that can be analyzed one by one are accepted exactly if they are unambiguous; else the
first one that does not go with those before it is refused. So each being checked against the earlier
ones comes to the same in every order. In a function of a result, a number of arguments selects at most
one fixed arity and at most one variadic one, and both only where the variadic one begins. -/
theorem analyzeFunction_overloads (analyzer : Analyzer σ) :
    (∀ limit items span params, Params.parse limit items span = .ok params ↔
      params.Written items ∧ params.names.length ≤ limit) ∧
    (∀ signatures, (∀ earlier added later, signatures = earlier ++ added :: later →
      Signature.conflict? earlier added = none) ↔ Signature.Unambiguous signatures) ∧
    (∀ self cx name uniqueName forms before arities after,
      analyzeEachArity analyzer self cx name uniqueName forms before = .ok arities after →
      (Signature.Unambiguous (arities.map Arity.signature) →
        analyzeArities analyzer self cx name uniqueName [] forms before = .ok arities after) ∧
      (¬ Signature.Unambiguous (arities.map Arity.signature) →
        ∃ count form, ∃ (fault : Fault) (reached : State σ), forms[count]? = some form ∧
          fault.kind = .invalidFn ∧
          Signature.Unambiguous ((arities.take count).map Arity.signature) ∧
          ¬ Signature.Unambiguous ((arities.take (count + 1)).map Arity.signature) ∧
          analyzeArities analyzer self cx name uniqueName [] forms before =
            .error (.refused (fault.diagnose form.span)) reached) ∧
      ∀ forms' before' arities' after', forms.Perm forms' →
        analyzeEachArity analyzer self cx name uniqueName forms' before' = .ok arities' after' →
        (analyzeArities analyzer self cx name uniqueName [] forms before = .ok arities after ↔
          analyzeArities analyzer self cx name uniqueName [] forms' before' =
            .ok arities' after')) ∧
    ∀ depth form session analysis, ((Session.analyze analyzer depth form).run session).1 = .ok analysis →
      ∀ found ∈ analysis.expr.walk, ∀ name uniqueName arities,
        found.node = .function name uniqueName arities → ∀ count, Arity.Selects arities count := by
  refine ⟨fun _ _ _ _ => Params.parse_eq_ok_iff, fun _ => Signature.unambiguous_iff_running, ?_, ?_⟩
  · intro self cx name uniqueName forms before arities after each
    refine ⟨fun unambiguous => ?_, fun ambiguous => ?_, ?_⟩
    · exact (analyzeArities_ok_iff Signature.unambiguous_nil).mpr ⟨each, unambiguous⟩
    · exact analyzeArities_refused Signature.unambiguous_nil each ambiguous
    · intro forms' before' arities' after' same each'
      rw [analyzeArities_ok_iff Signature.unambiguous_nil, and_iff_right each,
        analyzeArities_ok_iff Signature.unambiguous_nil, and_iff_right each']
      exact Signature.Unambiguous.perm (analyzeEachArity_perm same each each')
  · intro depth form session analysis analyzed found member name uniqueName arities function count
    exact (Session.analyze_unambiguous analyzed member function).selects count

/-- `(fn* ([x] nil) ([x & y] nil))`. -/
def overloaded : Form :=
  let symbol (name : String) : Form := .symbol (.simple name) .synthetic
  let arity (params : List String) : Form :=
    .list [.vector (params.map symbol) .synthetic, .atom .nil .synthetic] .synthetic
  .list [symbol "fn*", arity ["x"], arity ["x", "&", "y"]] .synthetic

/-- The two arities of a function that both take one argument. -/
def Analysis.disputing (analysis : Analysis) : Option (Arity Expr × Arity Expr) :=
  match analysis.expr.node with
  | .function _ _ [fixed, rest] =>
    if !fixed.isVariadic && rest.isVariadic && fixed.takes 1 && rest.takes 1 then some (fixed, rest)
    else none
  | _ => none

/-- A call of `overloaded` with one argument finds both arities, and the variadic one begins there. -/
theorem overloaded_overloads : ∃ analysis name uniqueName fixed rest,
    ((Session.analyze ⟨Namespaces.host, .standard⟩ 4 overloaded).run (.start (.inside "user"))).1 =
      .ok analysis ∧
    analysis.expr.node = .function name uniqueName [fixed, rest] ∧
    fixed.isVariadic = false ∧ rest.isVariadic = true ∧ fixed.takes 1 = true ∧ rest.takes 1 = true ∧
    1 = rest.fixedCount := by
  have computed : (((Session.analyze ⟨Namespaces.host, .standard⟩ 4 overloaded).run
      (.start (.inside "user"))).1.toOption.bind Analysis.disputing).isSome = true := by
    decide +kernel
  obtain ⟨⟨fixed, rest⟩, found⟩ := Option.isSome_iff_exists.mp computed
  obtain ⟨analysis, result, disputed⟩ := Option.bind_eq_some_iff.mp found
  have analyzed := ok_of_toOption result
  unfold Analysis.disputing at disputed
  split at disputed
  next name uniqueName first second node =>
    split at disputed
    next takes =>
      cases disputed
      simp only [Bool.and_eq_true, Bool.not_eq_true'] at takes
      obtain ⟨⟨⟨bounded, unbounded⟩, taken⟩, taken'⟩ := takes
      have selects := (analyzeFunction_overloads _).2.2.2 _ _ _ _ analyzed _
        analysis.expr.mem_walk_self _ _ _ node 1
      exact ⟨analysis, name, uniqueName, fixed, rest, analyzed, node, bounded, unbounded, taken,
        taken', selects.both fixed (by simp) rest (by simp) bounded unbounded taken taken'⟩
    next => cases disputed
  next => cases disputed

end LispScope
