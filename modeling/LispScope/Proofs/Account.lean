import LispScope.Proofs.Course

/-!
# What the trace of an analysis tells

Main statement: `analyzeStep_course`. The analysis of a form that is no macro call follows a course,
and if it gives an expression, the trace *tells* of it: it names the analyses that the parts of the
expression come from, in the order of these parts, and whatever the host was asked for on account of
the nodes around them. These nodes have the span of the form or of one inside it.

There is one lemma for each kind of form. It collects what is told of the children one after the
other; what is left to show in the end is that the node has these children.
-/
namespace LispScope

open AnalysisM

variable {σ α β : Type} {setting : Setting σ} {self : Recursion σ} {config : Config}
  {cx : Context} {span : Span}

/-- A trace tells of expressions: each comes from an analysis, or is a node that belongs to the form
and of whose children it is told in turn. -/
inductive Tells (form : Form) : List Expr → List (Event σ) → Prop
  | nil : Tells form [] []
  | visit (moment : Moment σ) (rest : Tells form exprs trace) :
      Tells form (expr :: exprs) (.visit moment expr :: trace)
  | node {expr : Expr} (located : form.HasSpan expr.span) (inside : Tells form expr.children told)
      (rest : Tells form exprs trace) :
      Tells form (expr :: exprs) (expr.node.deeds.map .deed ++ (told ++ trace))

theorem Tells.append {form : Form} {exprs others : List Expr} {trace more : List (Event σ)}
    (first : Tells form exprs trace) (second : Tells form others more) :
    Tells form (exprs ++ others) (trace ++ more) := by
  induction first with
  | nil => exact second
  | visit moment _ ih => exact .visit moment ih
  | node located inside _ _ ih =>
    simp only [List.append_assoc]
    exact .node located inside ih

/-- It is told of all that makes up a value and does not come earlier. -/
def Yields (setting : Setting σ) (Made : α → List Expr → Prop) (earlier : List Expr) (value : α)
    (trace : List (Event σ)) : Prop :=
  ∃ rest, Made value (earlier ++ rest) ∧ Tells setting.form rest trace

/-- What makes up a value is what it consists of. -/
def MadeOf (parts : α → List Expr) (value : α) (exprs : List Expr) : Prop := parts value = exprs

/-- What makes up a node that belongs to the form are its children. -/
structure Built (setting : Setting σ) (deeds : List Deed) (expr : Expr) (exprs : List Expr) : Prop where
  located : setting.form.HasSpan expr.span
  deeds : expr.node.deeds = deeds
  children : expr.children = exprs

/-- It is told of a value and of all that makes it up. -/
abbrev Told (setting : Setting σ) (parts : α → List Expr) : α → List (Event σ) → Prop :=
  Yields setting (MadeOf parts) []

theorem Yields.told {deeds : List Deed} {expr : Expr} {trace : List (Event σ)}
    (yields : Yields setting (Built setting deeds) [] expr trace) :
    Told setting ([·]) expr (deeds.map .deed ++ trace) := by
  obtain ⟨_, ⟨located, rfl, rfl⟩, inside⟩ := yields
  exact ⟨[expr], rfl, by simpa using Tells.node located inside .nil⟩

namespace Routine

variable {Made : β → List Expr → Prop} {earlier : List Expr}

theorem imp {P Q : α → List (Event σ) → Prop} {run : Recursion σ → AnalysisM σ α}
    (steps : Routine setting self run P) (weaker : ∀ value trace, P value trace → Q value trace) :
    Routine setting self run Q := by
  intro steady before start
  cases steps steady before start with
  | ok path holds same => exact .ok path (weaker _ _ holds) same
  | breaks path breaks same => exact .breaks path breaks same
  | fails moment path makes failed same => exact .fails moment path makes failed same

/-- What is told of a first value is told of what is made with it. -/
theorem collect {parts : α → List Expr} {first : Recursion σ → AnalysisM σ α}
    {next : Recursion σ → α → AnalysisM σ β}
    (steps : Routine setting self first (Told setting parts))
    (follow : ∀ value, Routine setting self (fun self' => next self' value)
      (Yields setting Made (earlier ++ parts value))) :
    Routine setting self (fun self' => first self' >>= next self') (Yields setting Made earlier) := by
  refine .bind steps ?_
  rintro value trace ⟨_, rfl, told⟩
  refine (follow value).imp ?_
  rintro result more ⟨rest, made, others⟩
  exact ⟨parts value ++ rest, by simpa using made, told.append others⟩

theorem give {value : β} (complete : Made value earlier) :
    Routine setting self (fun _ => Pure.pure value) (Yields setting Made earlier) :=
  .pure ⟨[], by simpa using complete, .nil⟩

/-- It is told of a node if it is told of its children. -/
theorem node {run : Recursion σ → AnalysisM σ Expr}
    (steps : Routine setting self run (Yields setting (Built setting []) [])) :
    Routine setting self run (Told setting ([·])) :=
  steps.imp fun _ _ yields => yields.told

/-- It is told of a node for which the host was asked first. -/
theorem node_after (deeds : α → List Deed) {first : Recursion σ → AnalysisM σ α}
    {next : Recursion σ → α → AnalysisM σ Expr}
    (steps : Routine setting self first fun value trace => trace = (deeds value).map .deed)
    (follow : ∀ value, Routine setting self (fun self' => next self' value)
      (Yields setting (Built setting (deeds value)) [])) :
    Routine setting self (fun self' => first self' >>= next self') (Told setting ([·])) := by
  refine .bind steps ?_
  rintro value _ rfl
  exact (follow value).imp fun _ _ yields => yields.told

/-- It is told of what another form is analyzed to. -/
theorem part {form : Form} (cx : Context)
    (inside : form.Inside setting.form) :
    Routine setting self (fun self' => self' cx form) (Told setting ([·])) := by
  obtain ⟨item, member, within⟩ := inside
  exact .visit (.part member within) fun state expr => ⟨[expr], rfl, .visit _ .nil⟩

theorem mapM {form : Option Form} (cx : Context)
    (inside : ∀ item ∈ form, item.Inside setting.form) :
    Routine setting self (fun self' => form.mapM (self' cx)) (Told setting Option.toList) := by
  cases form with
  | none => exact .give rfl
  | some form => exact .collect (.part cx (inside form rfl)) fun expr => .give rfl

end Routine

/-- Whatever stands inside the form has a span of the form. -/
theorem Throughout.located {form : Form} {forms : List Form} (parts : Throughout (·.Inside form) forms) :
    Throughout (fun sub => form.HasSpan sub.span) forms :=
  fun item member sub within => (parts item member sub within).hasSpan

/-! ### Constants, names and bodies -/

theorem analyzeConstant_routine {value : Datum} (here : setting.form.HasSpan span) :
    Routine setting self (fun _ => analyzeConstant cx value span)
      (Yields setting (Built setting (value.keywords.map .keyword)) []) := by
  unfold analyzeConstant
  split
  · exact .after (.liftConstant here) fun _ _ => .give ⟨here, rfl, rfl⟩
  · exact .give ⟨here, rfl, rfl⟩

theorem analyzeNil_routine (here : setting.form.HasSpan span) :
    Routine setting self (fun _ => analyzeNil cx span) (Told setting ([·])) :=
  .node (analyzeConstant_routine here)

theorem analyzeQuoted_routine {form : Form} (here : setting.form.HasSpan span) :
    Routine setting self (fun _ => analyzeQuoted ⟨setting.host, config⟩ cx form span)
      (Told setting ([·])) := by
  refine .node_after (fun value => value.keywords.map .keyword) .keywords fun value => ?_
  exact analyzeConstant_routine here

theorem analyzeSymbol_routine {symbol : Symbol} (here : setting.form.HasSpan span) :
    Routine setting self (fun _ => analyzeSymbol ⟨setting.host, config⟩ cx symbol span)
      (Told setting ([·])) := by
  refine .node (.after (.readTree here) fun found _ => ?_)
  match found with
  | some ⟨.binding source, crossed⟩ =>
    exact .after (.useBinding here) fun _ _ => .give ⟨here, rfl, rfl⟩
  | some ⟨.self target, crossed⟩ => exact .after (.useSelf here) fun _ _ => .give ⟨here, rfl, rfl⟩
  | none =>
    refine .after .askHost fun var _ => ?_
    cases var with
    | some var => exact .after (.liftVar here) fun _ _ => .give ⟨here, rfl, rfl⟩
    | none =>
      dsimp only
      split
      · exact .refuse rfl here
      · exact .refuse rfl here

theorem analyzeSequence_routine {forms : List Form}
    (parts : Throughout (·.Inside setting.form) forms) :
    Routine setting self (fun self' => analyzeSequence self' cx forms) (Told setting id) := by
  induction forms with
  | nil => exact .give rfl
  | cons form forms ih =>
    cases forms with
    | nil => exact .collect (.part cx parts.head) fun last => .give rfl
    | cons next forms =>
      refine .collect (.part cx.statement parts.head) fun first => ?_
      exact .collect (ih parts.tail) fun rest => .give rfl

theorem analyzeBody_routine {body : List Form}
    (here : setting.form.HasSpan span) (parts : Throughout (·.Inside setting.form) body) :
    Routine setting self (fun self' => analyzeBody self' cx body span) (Told setting ([·])) := by
  unfold analyzeBody
  split
  · exact analyzeNil_routine here
  · exact .part cx parts.head
  · refine .node (.collect (analyzeSequence_routine parts) fun items => ?_)
    exact .give ⟨here, rfl, rfl⟩

theorem analyzeOperands_routine {forms : List Form}
    (parts : Throughout (·.Inside setting.form) forms) :
    Routine setting self (fun self' => analyzeOperands self' cx forms) (Told setting id) := by
  induction forms with
  | nil => exact .give rfl
  | cons form forms ih =>
    refine .collect (.part cx parts.head) fun first => ?_
    exact .collect (ih parts.tail) fun rest => .give rfl

theorem analyzeEntries_routine {entries : List (Form × Form)}
    (parts : ∀ entry ∈ entries, entry.1.Inside setting.form ∧ entry.2.Inside setting.form) :
    Routine setting self (fun self' => analyzeEntries self' cx entries)
      (Told setting (List.flatMap fun entry => [entry.1, entry.2])) := by
  induction entries with
  | nil => exact .give rfl
  | cons entry entries ih =>
    obtain ⟨⟨keyed, valued⟩, parts⟩ := List.forall_mem_cons.mp parts
    refine .collect (.part cx.operand keyed) fun key => ?_
    refine .collect (.part cx.operand valued) fun value => ?_
    exact .collect (ih parts) fun rest => .give rfl

/-! ### Definitions and calls -/

theorem analyzeDef_routine {args : List Form} (here : setting.form.HasSpan span)
    (parts : Throughout (·.Inside setting.form) args) :
    Routine setting self (fun self' => analyzeDef ⟨setting.host, config⟩ self' cx args span)
      (Told setting ([·])) := by
  refine .after .askHost ?_
  rintro _ ⟨asked, reached, rfl⟩
  refine .after (.settled (DefParts.blames here parts.located)) fun shape found => ?_
  refine .node_after (fun var => [.define var.name]) (.define reached) fun var => ?_
  refine .after (.liftVar here) fun lifted own => ?_
  have valued := fun form member => parts.here (DefParts.value_mem found form member)
  refine .collect (.mapM cx.operand valued) fun value => ?_
  exact .give ⟨here, by simp [Context.expr, Node.deeds, own], rfl⟩

theorem analyzeCall_routine {head : Form} {args : List Form}
    (here : setting.form.HasSpan span) (parts : Throughout (·.Inside setting.form) (head :: args)) :
    Routine setting self (fun self' => analyzeCall ⟨setting.host, config⟩ self' cx head args span)
      (Told setting ([·])) := by
  refine .node (.collect (.part cx.operand parts.head) fun operator => ?_)
  refine .collect (analyzeOperands_routine parts.tail) fun operands => ?_
  exact .give ⟨here, rfl, rfl⟩

theorem noteSelfCall_routine {target : FrameId} (here : setting.form.HasSpan span) :
    Routine setting self (fun _ => noteSelfCall span target) (Silent fun _ => True) := by
  refine .after (.readTree here) fun frame _ => ?_
  dsimp only
  split
  · exact .broken_bind rfl here
  · exact .updateFunction here

theorem analyzeSelfCall_routine {found : Found FrameId} {args : List Form}
    (here : setting.form.HasSpan span) (parts : Throughout (·.Inside setting.form) args) :
    Routine setting self (fun self' => analyzeSelfCall self' cx found args span)
      (Told setting ([·])) := by
  refine .node (.after (.useSelf here) fun _ _ => ?_)
  refine .after (noteSelfCall_routine here) fun _ _ => ?_
  refine .collect (analyzeOperands_routine parts) fun operands => ?_
  exact .give ⟨here, rfl, rfl⟩

/-! ### Local names -/

theorem analyzePairs_routine {isLoop : Bool} {pairs : List (Form × Form)}
    (parts : ∀ pair ∈ pairs, pair.1.Inside setting.form ∧ pair.2.Inside setting.form) :
    Routine setting self (fun self' => analyzePairs self' cx isLoop pairs)
      (Told setting (List.map Prod.snd)) := by
  induction pairs with
  | nil => exact .give rfl
  | cons pair pairs ih =>
    obtain ⟨⟨named, valued⟩, parts⟩ := List.forall_mem_cons.mp parts
    refine .after (.settled (bindingName_blames named.hasSpan)) fun name _ => ?_
    refine .collect (.part (cx.operandAs false) valued) fun initial => ?_
    refine .after (.readTree valued.hasSpan) fun unboxable _ => ?_
    refine .after (.bindLocal valued.hasSpan) fun binding _ => ?_
    exact .collect (ih parts) fun rest => .give rfl

theorem analyzeLet_routine {isLoop : Bool} {args : List Form}
    (here : setting.form.HasSpan span) (parts : Throughout (·.Inside setting.form) args) :
    Routine setting self (fun self' => analyzeLet self' isLoop cx args span)
      (Told setting ([·])) := by
  refine .node (.after (.settled (bindingPairs_blames here parts.located)) fun pairs found => ?_)
  refine .after .openFrame fun frame _ => ?_
  refine .collect (analyzePairs_routine (parts.pairs found)) fun initials => ?_
  have body (inner : Context) : Routine setting self (fun self' => do
      let body ← analyzeBody self' inner args.tail span
      return cx.expr (.lets isLoop initials body frame) span)
      (Yields setting (Built setting []) ([] ++ initials.map Prod.snd)) :=
    .collect (analyzeBody_routine here parts.tail) fun body => .give ⟨here, rfl, rfl⟩
  cases isLoop with
  | true => exact .after (.fillLoop here) fun _ _ => body _
  | false => exact body _

theorem bindFunctions_routine {frame : FrameId} {pairs : List (Form × Form)}
    (parts : ∀ pair ∈ pairs, pair.1.Inside setting.form ∧ pair.2.Inside setting.form) :
    Routine setting self (fun _ => bindFunctions frame pairs)
      (Silent fun bound => ∀ pair ∈ bound, pair.2.Inside setting.form) := by
  induction pairs with
  | nil => exact .pure ⟨rfl, nofun⟩
  | cons pair pairs ih =>
    obtain ⟨⟨named, valued⟩, parts⟩ := List.forall_mem_cons.mp parts
    refine .after (.settled (bindingName_blames named.hasSpan)) fun name _ => ?_
    dsimp only
    split
    · exact .refuse_bind rfl valued.hasSpan
    · refine .after (.bindLocal valued.hasSpan) fun binding _ => ?_
      refine .after (ih parts) fun rest others => .pure ⟨rfl, ?_⟩
      exact List.forall_mem_cons.mpr ⟨valued, others⟩

theorem analyzeFunctions_routine {pairs : List (BindingId × Form)}
    (parts : ∀ pair ∈ pairs, pair.2.Inside setting.form) :
    Routine setting self (fun self' => analyzeFunctions self' cx pairs)
      (Told setting (List.map Prod.snd)) := by
  induction pairs with
  | nil => exact .give rfl
  | cons pair pairs ih =>
    obtain ⟨function, parts⟩ := List.forall_mem_cons.mp parts
    refine .collect (.part cx function) fun value => ?_
    exact .collect (ih parts) fun rest => .give rfl

theorem analyzeLetfn_routine {args : List Form} (here : setting.form.HasSpan span)
    (parts : Throughout (·.Inside setting.form) args) :
    Routine setting self (fun self' => analyzeLetfn self' cx args span) (Told setting ([·])) := by
  refine .node (.after (.settled (bindingPairs_blames here parts.located)) fun pairs found => ?_)
  refine .after .openFrame fun frame _ => ?_
  refine .after (bindFunctions_routine (parts.pairs found)) fun bound inside => ?_
  refine .collect (analyzeFunctions_routine inside) fun functions => ?_
  refine .collect (analyzeBody_routine here parts.tail) fun body => ?_
  exact .give ⟨here, rfl, rfl⟩

/-! ### Functions -/

theorem bindParams_routine {frame : FrameId} {names : List Symbol} (here : setting.form.HasSpan span) :
    Routine setting self (fun _ => bindParams span frame names) (Silent fun _ => True) := by
  induction names with
  | nil => exact .pure ⟨rfl, trivial⟩
  | cons name names ih =>
    refine .after (.bindLocal here) fun binding _ => ?_
    exact .after ih fun rest _ => .pure ⟨rfl, trivial⟩

theorem analyzeArity_routine {name : Option Symbol} {uniqueName : String} {form : ArityForm}
    (parts : Throughout (·.Inside setting.form) (.vector form.params form.span :: form.body)) :
    Routine setting self
      (fun self' => analyzeArity ⟨setting.host, config⟩ self' cx name uniqueName form)
      (Told setting fun arity => [arity.body]) := by
  have here := parts.head.hasSpan
  have params := (parts.items (List.mem_cons_self ..)).located
  refine .after (.settled (Params.parse_blames here params)) fun params _ => ?_
  refine .after .openFrame fun frame _ => .after (.fillFunction here) fun _ _ => ?_
  refine .after (bindParams_routine here) fun bindings _ => ?_
  exact .collect (analyzeBody_routine here parts.tail) fun body => .give rfl

theorem analyzeArities_routine {name : Option Symbol} {uniqueName : String} {earlier : List Signature}
    {forms : List ArityForm}
    (parts : ∀ form ∈ forms,
      Throughout (·.Inside setting.form) (.vector form.params form.span :: form.body)) :
    Routine setting self
      (fun self' => analyzeArities ⟨setting.host, config⟩ self' cx name uniqueName earlier forms)
      (Told setting (List.map Arity.body)) := by
  induction forms generalizing earlier with
  | nil => exact .give rfl
  | cons form forms ih =>
    obtain ⟨arity, parts⟩ := List.forall_mem_cons.mp parts
    refine .collect (analyzeArity_routine arity) fun analyzed => ?_
    dsimp only
    split
    next fault conflict =>
      exact .refuse_bind (Signature.conflict?_family conflict) arity.head.hasSpan
    next => exact .collect (ih parts) fun rest => .give rfl

theorem analyzeFunction_routine {args : List Form} (here : setting.form.HasSpan span)
    (parts : Throughout (·.Inside setting.form) args) :
    Routine setting self (fun self' => analyzeFunction ⟨setting.host, config⟩ self' cx args span)
      (Told setting ([·])) := by
  refine .node (.after (.settled (functionName_blames parts.located)) ?_)
  rintro ⟨name, rest⟩ named
  have parts := parts.subset (functionName_rest named)
  refine .after (.settled (ArityForm.ofForms_blames here parts.located)) fun forms found => ?_
  refine .after .freshName fun uniqueName _ => ?_
  refine .collect (analyzeArities_routine (ArityForm.ofForms_ok parts found)) fun arities => ?_
  exact .give ⟨here, rfl, rfl⟩

/-! ### Control flow -/

theorem analyzeDo_routine {args : List Form} (here : setting.form.HasSpan span)
    (parts : Throughout (·.Inside setting.form) args) :
    Routine setting self (fun self' => analyzeDo self' cx args span) (Told setting ([·])) := by
  unfold analyzeDo
  split
  · exact analyzeNil_routine here
  · refine .node (.collect (analyzeSequence_routine parts) fun items => ?_)
    exact .give ⟨here, rfl, rfl⟩

theorem analyzeIf_routine {args : List Form} (here : setting.form.HasSpan span)
    (parts : Throughout (·.Inside setting.form) args) :
    Routine setting self (fun self' => analyzeIf self' cx args span) (Told setting ([·])) := by
  -- With and without an alternative, the parts are analyzed one after the other.
  have branches (condition yes : Form) (no : Option Form) (conditional : condition.Inside setting.form)
      (positive : yes.Inside setting.form) (negative : ∀ form ∈ no, form.Inside setting.form) :
      Routine setting self (fun self' => do
          let condition ← self' cx.operand condition
          let yes ← self' cx yes
          let no ← no.mapM (self' cx)
          return cx.expr (.branch condition yes no) span) (Told setting ([·])) := by
    refine .node (.collect (.part cx.operand conditional) fun test => ?_)
    refine .collect (.part cx positive) fun value => ?_
    refine .collect (.mapM cx negative) fun other => ?_
    exact .give ⟨here, rfl, rfl⟩
  match args with
  | [condition, yes] => exact branches condition yes none parts.head parts.tail.head nofun
  | [condition, yes, no] =>
    refine branches condition yes (some no) parts.head parts.tail.head ?_
    rintro _ ⟨⟩
    exact parts.tail.tail.head
  | [] => exact .refuse_bind rfl here
  | [_] => exact .refuse_bind rfl here
  | _ :: _ :: _ :: _ :: _ => exact .refuse_bind rfl here

theorem analyzeQuote_routine {args : List Form} (here : setting.form.HasSpan span) :
    Routine setting self (fun _ => analyzeQuote ⟨setting.host, config⟩ cx args span)
      (Told setting ([·])) := by
  unfold analyzeQuote
  split
  · exact analyzeQuoted_routine here
  · exact .refuse rfl here

theorem analyzeVar_routine {args : List Form} (here : setting.form.HasSpan span)
    (parts : Throughout (·.Inside setting.form) args) :
    Routine setting self (fun _ => analyzeVar ⟨setting.host, config⟩ cx args span)
      (Told setting ([·])) := by
  unfold analyzeVar
  split
  · refine .node (.after .askHost fun var _ => ?_)
    cases var with
    | some var => exact .after (.liftVar here) fun _ _ => .give ⟨here, rfl, rfl⟩
    | none => exact .after .askHost fun qualified _ => .refuse rfl parts.head.hasSpan
  · exact .refuse rfl parts.head.hasSpan
  · exact .refuse rfl here

theorem analyzeThrow_routine {args : List Form} (here : setting.form.HasSpan span)
    (parts : Throughout (·.Inside setting.form) args) :
    Routine setting self (fun self' => analyzeThrow self' cx args span) (Told setting ([·])) := by
  unfold analyzeThrow
  split
  · refine .node (.collect (.part cx.operand parts.head) fun value => ?_)
    exact .give ⟨here, rfl, rfl⟩
  · exact .refuse rfl here

theorem analyzeCatch_routine {items : List Form} {clause : Form}
    (here : setting.form.HasSpan clause.span) (parts : Throughout (·.Inside setting.form) items) :
    Routine setting self (fun self' => analyzeCatch self' cx items clause)
      (Told setting fun handler => [handler.body]) := by
  refine .after (.settled (CatchParts.blames here)) fun shape found => ?_
  obtain ⟨_, _, _, rfl⟩ := CatchParts.ofItems_ok found
  refine .after .openFrame fun frame _ => ?_
  refine .after (.bindLocal here) fun binding _ => ?_
  exact .collect (analyzeBody_routine here parts.tail.tail.tail) fun body => .give rfl

theorem analyzeFinally_routine {items : List Form} (here : setting.form.HasSpan span)
    (parts : Throughout (·.Inside setting.form) items) :
    Routine setting self (fun self' => analyzeFinally self' cx items span) (Told setting ([·])) :=
  .after .openFrame fun _ _ => analyzeBody_routine here parts.tail

theorem analyzeTry_routine {args : List Form} (here : setting.form.HasSpan span)
    (parts : Throughout (·.Inside setting.form) args) :
    Routine setting self (fun self' => analyzeTry self' cx args span) (Told setting ([·])) := by
  refine .node (.after (.settled (TryParts.blames parts.located)) fun shape found => ?_)
  have among := TryParts.among found
  refine .after .openFrame fun frame _ => ?_
  refine .collect (analyzeBody_routine here (parts.subset among.body)) fun body => ?_
  have handling : Routine setting self
      (fun self' => shape.handler.mapM fun handler => analyzeCatch self' cx handler.1 handler.2)
      (Told setting fun handler => (handler.map Handler.body).toList) := by
    cases clause : shape.handler with
    | none => exact .give rfl
    | some handler =>
      obtain ⟨member, same, _⟩ := among.handler handler clause
      have inside := parts.items member
      rw [same] at inside
      exact .collect (analyzeCatch_routine (parts.here member).hasSpan inside) fun _ => .give rfl
  have cleaning : Routine setting self
      (fun self' => shape.cleanup.mapM fun items => analyzeFinally self' cx items span)
      (Told setting Option.toList) := by
    cases clause : shape.cleanup with
    | none => exact .give rfl
    | some items =>
      obtain ⟨form, member, rfl, _⟩ := among.cleanup items clause
      exact .collect (analyzeFinally_routine here (parts.items member)) fun _ => .give rfl
  refine .collect handling fun handler => .collect cleaning fun cleanup => ?_
  exact .give ⟨here, rfl, rfl⟩

theorem analyzeBranches_routine {entries : List (Form × Form)}
    (parts : ∀ entry ∈ entries, entry.1.Inside setting.form ∧ entry.2.Inside setting.form) :
    Routine setting self (fun self' => analyzeBranches self' cx entries)
      (Told setting (List.map Prod.snd)) := by
  induction entries with
  | nil => exact .give rfl
  | cons entry entries ih =>
    obtain ⟨⟨keyed, branch⟩, parts⟩ := List.forall_mem_cons.mp parts
    refine .after (.settled (caseInteger_blames keyed.hasSpan)) fun key _ => ?_
    refine .collect (.part cx branch) fun value => ?_
    exact .collect (ih parts) fun rest => .give rfl

theorem analyzeCase_routine {args : List Form} (here : setting.form.HasSpan span)
    (parts : Throughout (·.Inside setting.form) args) :
    Routine setting self (fun self' => analyzeCase self' cx args span) (Told setting ([·])) := by
  refine .node (.after (.settled (CaseParts.blames here parts.located)) fun shape found => ?_)
  obtain ⟨shift, mask, mapSpan, rfl⟩ := CaseParts.ofItems_ok found
  have inside : Form.map shape.entries mapSpan ∈
      [shape.value, shift, mask, shape.fallback, .map shape.entries mapSpan] := by simp
  refine .collect (.part cx.operand parts.head) fun value => ?_
  refine .collect (analyzeBranches_routine (parts.entries inside)) fun branches => ?_
  refine .collect (.part cx (parts.here (by simp))) fun fallback => ?_
  exact .give ⟨here, rfl, rfl⟩

/-- A `recur` is refused for a fault of the input, unless the scopes are broken. -/
theorem recurTarget_fault {lineage : Lineage} {fault : Fault}
    (refused : recurTarget lineage = .error fault) :
    fault.kind.family = .analyze ∨ fault.kind = .internalFailure := by
  fun_induction recurTarget lineage with
  | case1 | case3 | case5 =>
    -- There is no root, or what the frame should know is not filled in.
    cases refused
    exact .inr rfl
  | case2 | case4 => cases refused
  | case6 | case7 | case8 | case9 =>
    cases refused
    exact .inl rfl
  | case10 id frame outer kind ih => exact ih refused
  | case11 id frame outer kind ih => exact ih refused

theorem analyzeRecur_routine {args : List Form} (here : setting.form.HasSpan span)
    (parts : Throughout (·.Inside setting.form) args) :
    Routine setting self (fun self' => analyzeRecur self' cx args span) (Told setting ([·])) := by
  unfold analyzeRecur
  dsimp only
  split
  · exact .refuse_bind rfl here
  · refine .node (.after (.readTree here) fun lineage _ => ?_)
    cases aimed : recurTarget lineage with
    | error fault =>
      rcases recurTarget_fault aimed with proper | internal
      · exact .refuse_bind proper here
      · exact .broken_bind internal here
    | ok found =>
      obtain ⟨target, expected⟩ := found
      change Routine setting self (fun _ => if args.length ≠ expected then _ else _) _
      split
      · exact .refuse_bind rfl here
      · cases target with
        | loop frame =>
          refine .collect (analyzeOperands_routine parts) fun operands => ?_
          exact .give ⟨here, rfl, rfl⟩
        | function frame =>
          refine .collect (analyzeOperands_routine parts) fun operands => ?_
          exact .after (.updateFunction here) fun _ _ => .give ⟨here, rfl, rfl⟩

/-! ### Native code -/

/-- A text that must hold one form. -/
theorem readInterpolation_routine {text : String} (here : setting.form.HasSpan span) :
    Routine setting self (fun _ => readInterpolation ⟨setting.host, config⟩ text span)
      (Silent fun form => ∃ world after, setting.host.Reaches setting.start world ∧
        setting.host.readFragment text span world = .ok [form] after) := by
  unfold readInterpolation
  rw [← bind_assoc]
  refine .after (.read here) ?_
  rintro forms ⟨world, after, reached, read⟩
  match forms with
  | [form] => exact .pure ⟨rfl, world, after, reached, read⟩
  | [] => exact .refuse rfl here
  | _ :: _ :: _ => exact .refuse rfl here

theorem analyzePieces_routine {pieces : List Piece} (here : setting.form.HasSpan span)
    (parts : ∀ text, .interpolation text ∈ pieces → ∀ world after form,
      setting.host.Reaches setting.start world →
      setting.host.readFragment text span world = .ok [form] after →
      Supplies setting.host (setting.host.Reaches setting.start) setting.form form) :
    Routine setting self (fun self' => analyzePieces ⟨setting.host, config⟩ self' cx span pieces)
      (Told setting (List.filterMap Chunk.expr?)) := by
  induction pieces with
  | nil => exact .give rfl
  | cons piece pieces ih =>
    have others := ih fun text member => parts text (List.mem_cons_of_mem _ member)
    cases piece with
    | code text => exact .collect others fun chunks => .give rfl
    | interpolation text =>
      refine .after (readInterpolation_routine here) ?_
      rintro form ⟨world, after, reached, read⟩
      have supplied := parts text (List.mem_cons_self ..) world after form reached read
      have visited : Routine setting self (fun self' => self' cx.operand form)
          (Told setting ([·])) :=
        .visit supplied fun state expr => ⟨[expr], rfl, .visit _ .nil⟩
      exact .collect visited fun value => .collect others fun chunks => .give rfl

theorem analyzeNative_routine {head : Form} {args : List Form}
    (whole : setting.form = .list (head :: args) span) (here : setting.form.HasSpan span)
    (parts : Throughout (·.Inside setting.form) args) :
    Routine setting self (fun self' => analyzeNative ⟨setting.host, config⟩ self' cx args span)
      (Told setting ([·])) := by
  unfold analyzeNative
  split
  next text textSpan =>
    have located := parts.head.hasSpan
    cases shaped : Piece.split? text with
    | none => exact .refuse rfl located
    | some pieces =>
      have reads (inner : String) (member : .interpolation inner ∈ pieces) (world after : σ)
          (form : Form) (reached : setting.host.Reaches setting.start world)
          (read : setting.host.readFragment inner textSpan world = .ok [form] after) :
          Supplies setting.host (setting.host.Reaches setting.start) setting.form form := by
        rw [whole]
        exact .fragment shaped member reached read
      refine .node (.collect (analyzePieces_routine located reads) fun chunks => ?_)
      exact .give ⟨here, rfl, rfl⟩
  · exact .refuse rfl parts.head.hasSpan
  · exact .refuse rfl here

/-! ### Macro calls and all other forms -/

variable {host : Host σ} {start : σ} {before : State σ}

namespace Diagnostic

/-- Only the open calls change when they are noted. -/
theorem noteExpansions_kind (diagnostic : Diagnostic) (calls : List Form) :
    (diagnostic.noteExpansions calls).kind = diagnostic.kind := by
  unfold noteExpansions
  split <;> rfl

theorem noteExpansions_causes (diagnostic : Diagnostic) (calls : List Form) :
    (diagnostic.noteExpansions calls).causes = diagnostic.causes := by
  unfold noteExpansions
  split <;> rfl

theorem noteExpansions_span (diagnostic : Diagnostic) (calls : List Form) :
    (diagnostic.noteExpansions calls).span = diagnostic.span := by
  unfold noteExpansions
  split <;> rfl

end Diagnostic

/-- How the analysis of a macro call ends: as that of its expansion does, with the open calls noted if
that is refused, or with the fault that it cannot be expanded. The call is taken off the stack in the
end. -/
inductive Expands (host : Host σ) (self : Recursion σ) (moment : Moment σ) :
    EStateM.Result Halt (State σ) Expr → Prop
  | ok (expanded : host.expandOnce moment.form moment.state.world = .ok expansion world)
      (given : (moment.expanding expansion world).outcome self = .ok expr after) :
      Expands host self moment (.ok expr after.popped)
  | exhausted (expanded : host.expandOnce moment.form moment.state.world = .ok expansion world)
      (failed : (moment.expanding expansion world).outcome self = .error .exhausted after) :
      Expands host self moment (.error .exhausted after.popped)
  | refused (expanded : host.expandOnce moment.form moment.state.world = .ok expansion world)
      (failed : (moment.expanding expansion world).outcome self = .error (.refused diagnostic) after) :
      Expands host self moment
        (.error (.refused (diagnostic.noteExpansions after.expansions)) after.popped)
  | unexpanded (failed : host.expandOnce moment.form moment.state.world = .error cause world) :
      Expands host self moment
        (.error (.refused ((Fault.expansionOf moment.form cause).noteExpansions
          (moment.state.expansions ++ [moment.form]))) { moment.state with world })

/-- A macro call is analyzed as one. -/
theorem Moment.IsMacroCall.outcome_eq {moment : Moment σ} (call : moment.IsMacroCall host) :
    moment.outcome (analyzeStep ⟨host, config⟩ self) =
      analyzeMacroCall ⟨host, config⟩ self moment.cx moment.form moment.state := by
  cases call with
  | @intro _ _ _ _ cx state symbol name headed ordinary climbed free found =>
    have asked : findVar ⟨host, config⟩ symbol state = .ok (some ⟨name, true⟩) state :=
      askHost_ok.mpr ⟨found, rfl⟩
    simp only [Moment.outcome, analyzeStep, analyzeList, headed, Option.bind_some, ordinary,
      analyzeApplication]
    rw [bind_of_ok (resolve_ok.mpr ⟨⟨_, climbed, free⟩, rfl⟩)]
    exact bind_of_ok asked

theorem Moment.IsMacroCall.expands {moment : Moment σ} (call : moment.IsMacroCall host) :
    Expands host self moment (moment.outcome (analyzeStep ⟨host, config⟩ self)) := by
  rw [call.outcome_eq, analyzeMacroCall_eq]
  cases expanded : host.expandOnce moment.form moment.state.world with
  | error cause world =>
    have unchanged := popped_pushed { moment.state with world } moment.form
    rw [analyzeExpansion_of_error expanded, closed]
    exact unchanged ▸ .unexpanded expanded
  | ok expansion world =>
    rw [analyzeExpansion_of_ok expanded]
    change Expands host self moment (closed ((moment.expanding expansion world).outcome self))
    cases given : (moment.expanding expansion world).outcome self with
    | ok expr after => exact .ok expanded given
    | error halt after =>
      cases halt with
      | exhausted => exact .exhausted expanded given
      | refused diagnostic => exact .refused expanded given

/-- A list that is neither a special form nor a macro call is a call of a value. -/
theorem analyzeApplication_course {head : Form} {args : List Form}
    (plain : ¬ (⟨cx, .list (head :: args) span, before⟩ : Moment σ).IsMacroCall host)
    (ordinary : head.symbol?.bind Special.ofSymbol? = none) (whole : setting =
      (⟨cx, .list (head :: args) span, before⟩ : Moment σ).setting host start)
    (steady : Steady host start self) (fits : setting.Fits before) :
    Course setting self (Told setting ([·])) before fun self' =>
      analyzeApplication ⟨host, config⟩ self' cx head args span before := by
  subst whole
  have here := Form.hasSpan_self (.list (head :: args) span)
  have parts := Form.throughout_inside (.list (head :: args) span)
  unfold analyzeApplication
  cases headed : head.symbol? with
  | none => exact analyzeCall_routine here parts steady before fits
  | some symbol =>
    rw [headed, Option.bind_some] at ordinary
    dsimp only
    cases climbed : before.tree.lineage cx.frame with
    | none =>
      have broken : (resolve span cx symbol : AnalysisM σ _) before =
          .error (.refused (Fault.brokenScopes.diagnose span)) before :=
        readTree_of_none (congrArg (Option.map _) climbed)
      exact .breaks .done (.broken rfl here) fun _ _ => bind_of_error broken
    | some lineage =>
      have resolved : (resolve span cx symbol : AnalysisM σ _) before =
          .ok (lineage.resolve symbol) before := resolve_ok.mpr ⟨⟨lineage, climbed, rfl⟩, rfl⟩
      simp only [bind_of_ok resolved]
      match free : lineage.resolve symbol with
      | some ⟨.binding source, crossed⟩ => exact analyzeCall_routine here parts steady before fits
      | some ⟨.self target, crossed⟩ =>
        exact analyzeSelfCall_routine here parts.tail steady before fits
      | none =>
        dsimp only
        have asked : findVar ⟨host, config⟩ symbol before = .ok _ before := askHost_ok.mpr ⟨rfl, rfl⟩
        simp only [bind_of_ok asked]
        -- Were the head a macro, the list would be a macro call.
        match found : host.findVar before.world (host.qualify before.world symbol) with
        | some ⟨name, true⟩ => exact (plain ⟨headed, ordinary, climbed, free, found⟩).elim
        | some ⟨_, false⟩ => exact analyzeCall_routine here parts steady before fits
        | none => exact analyzeCall_routine here parts steady before fits

theorem analyzeSpecial_routine {special : Special} {head : Form} {args : List Form}
    (whole : setting.form = .list (head :: args) span) :
    Routine setting self
      (fun self' => analyzeSpecial ⟨setting.host, config⟩ self' cx special args span)
      (Told setting ([·])) := by
  have here : setting.form.HasSpan span := by
    rw [whole]
    exact Form.hasSpan_self _
  have parts : Throughout (·.Inside setting.form) args := by
    rw [whole]
    exact (Form.throughout_inside (.list (head :: args) span)).tail
  cases special with
  | define => exact analyzeDef_routine here parts
  | function => exact analyzeFunction_routine here parts
  | lets => exact analyzeLet_routine here parts
  | loop => exact analyzeLet_routine here parts
  | letfns => exact analyzeLetfn_routine here parts
  | sequence => exact analyzeDo_routine here parts
  | branch => exact analyzeIf_routine here parts
  | quotation => exact analyzeQuote_routine here
  | varObject => exact analyzeVar_routine here parts
  | throwing => exact analyzeThrow_routine here parts
  | guarded => exact analyzeTry_routine here parts
  | dispatch => exact analyzeCase_routine here parts
  | recur => exact analyzeRecur_routine here parts
  | native => exact analyzeNative_routine whole here parts

/-- The analysis of a form that is no macro call follows a course, which tells of the expression. -/
theorem analyzeStep_course {moment : Moment σ} (plain : ¬ moment.IsMacroCall host)
    (steady : Steady host start self) (proper : moment.state.Proper host start) :
    Course (moment.setting host start) self (Told (moment.setting host start) ([·])) moment.state
      fun self' => moment.outcome (analyzeStep ⟨host, config⟩ self') := by
  have fits := Moment.fits proper
  obtain ⟨cx, form, before⟩ := moment
  have here := form.hasSpan_self
  have parts := form.throughout_inside
  simp only [Moment.outcome]
  unfold analyzeStep
  split
  · exact analyzeSymbol_routine here steady before fits
  next head args span =>
    unfold analyzeList
    cases special : head.symbol?.bind Special.ofSymbol? with
    | some special => exact analyzeSpecial_routine rfl steady before fits
    | none => exact analyzeApplication_course plain special rfl steady fits
  · split
    · exact analyzeQuoted_routine here steady before fits
    · split
      · refine Routine.node (.collect (analyzeOperands_routine parts) fun items => ?_) steady before
          fits
        exact .give ⟨here, rfl, rfl⟩
      · refine Routine.node (.collect (analyzeOperands_routine parts) fun items => ?_) steady before
          fits
        exact .give ⟨here, rfl, rfl⟩
      next entries span _ _ _ =>
        have pairs : ∀ entry ∈ entries, entry.1.Inside (.map entries span) ∧
            entry.2.Inside (.map entries span) := by
          intro entry member
          constructor <;> exact parts.here (List.mem_flatMap.mpr ⟨entry, member, by simp⟩)
        refine Routine.node (.collect (analyzeEntries_routine pairs) fun items => ?_) steady before
          fits
        exact .give ⟨here, rfl, rfl⟩
      · exact analyzeQuoted_routine here steady before fits

/-- An analysis that goes deeper than another one is that of a macro call, or follows a course on which
it makes use of the other one. -/
theorem analyzeForm_succ {depth : Nat} {moment : Moment σ} {result : EStateM.Result Halt (State σ) Expr}
    (steady : Steady host start (analyzeForm ⟨host, config⟩ depth))
    (proper : moment.state.Proper host start)
    (given : moment.outcome (analyzeForm ⟨host, config⟩ (depth + 1)) = result) :
    moment.IsMacroCall host ∧ Expands host (analyzeForm ⟨host, config⟩ depth) moment result ∨
      ¬ moment.IsMacroCall host ∧ Ending (moment.setting host start) (analyzeForm ⟨host, config⟩ depth)
        (Told (moment.setting host start) ([·])) moment.state result := by
  subst given
  by_cases call : moment.IsMacroCall host
  · exact .inl ⟨call, call.expands⟩
  · exact .inr ⟨call, (analyzeStep_course call steady proper).ending⟩

/-- However deep it goes, the analysis goes from proper states to proper states. -/
theorem analyzeForm_steady (depth : Nat) : Steady host start (analyzeForm ⟨host, config⟩ depth) := by
  refine ⟨analyzeForm_balanced depth, ?_⟩
  induction depth with
  | zero => nofun
  | succ depth ih =>
    intro moment expr after proper given
    have steady : Steady host start (analyzeForm ⟨host, config⟩ depth) := ⟨analyzeForm_balanced depth, ih⟩
    rcases analyzeForm_succ steady proper given with ⟨_, expands⟩ | ⟨_, ending⟩
    · cases expands with
      | ok expanded answered =>
        have inner := ih _ (proper.expanding expanded) answered
        exact ⟨inner.reached, inner.named⟩
    · cases ending with
      | ok path holds => exact (path.fits steady (Moment.fits proper)).proper

/-- The analysis that a session makes of a form. -/
def Session.moment (session : Session σ) (form : Form) : Moment σ :=
  ⟨.topLevel, form, ⟨session.world, .initial, session.names, []⟩⟩

theorem Session.moment_proper (session : Session σ) (form : Form) :
    (session.moment form).state.Proper host session.world := ⟨.start, .initial⟩

end LispScope
