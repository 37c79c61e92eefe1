import LispScope.Host.Standard
import LispScope.Proofs.Account

/-!
# What an analysis leaves behind in the namespaces

Main statement: `Session.analyze_additions`. Whether a form is accepted or refused, its analysis only
adds to the namespaces: plain vars of the current namespace, and keywords. If it is accepted, the vars
are those of its definitions and the keywords those of its constants.

The namespaces only change by the deeds that are noted in a trace, and what is told of an expression
names the deeds of its nodes. So what the namespaces have gained by an analysis can be read off the
expression.
-/
namespace LispScope

namespace Namespaces

/-- The second namespaces are the first ones with plain vars of the current namespace and keywords
added. -/
structure Extends (before after : Namespaces) : Prop where
  current : after.current = before.current
  aliases : after.aliases = before.aliases
  reader : after.reader = before.reader
  kept : ∀ name expander, before.vars.get? name = some expander → after.vars.get? name = some expander
  plain : ∀ name expander, before.vars.get? name = none → after.vars.get? name = some expander →
    expander = none ∧ name.ns = some before.current
  keywords : before.keywords <+: after.keywords

/-- What the namespaces gain by deeds. -/
structure Gains (before : Namespaces) (deeds : List Deed) (after : Namespaces) : Prop where
  current : after.current = before.current
  aliases : after.aliases = before.aliases
  reader : after.reader = before.reader
  vars : ∀ name expander, after.vars.get? name = some expander ↔
    before.vars.get? name = some expander ∨
      before.vars.get? name = none ∧ expander = none ∧ .define name ∈ deeds
  home : ∀ name, .define name ∈ deeds → name.ns = some before.current
  older : before.keywords <+: after.keywords
  keywords : ∀ name, name ∈ after.keywords ↔ name ∈ before.keywords ∨ .keyword name ∈ deeds

namespace Gains

variable {before between after : Namespaces} {deeds more : List Deed}

theorem refl (spaces : Namespaces) : spaces.Gains [] spaces where
  current := rfl
  aliases := rfl
  reader := rfl
  vars := by simp
  home := nofun
  older := List.prefix_refl _
  keywords := by simp

theorem trans (first : before.Gains deeds between) (second : between.Gains more after) :
    before.Gains (deeds ++ more) after where
  current := second.current.trans first.current
  aliases := second.aliases.trans first.aliases
  reader := second.reader.trans first.reader
  vars name expander := by
    have early := first.vars name
    have late := second.vars name expander
    cases held : before.vars.get? name <;> cases gained : between.vars.get? name <;> grind
  home name member := by
    rcases List.mem_append.mp member with early | late
    · exact first.home name early
    · exact (second.home name late).trans (congrArg some first.current)
  older := first.older.trans second.older
  keywords name := by
    rw [second.keywords, first.keywords, List.mem_append, or_assoc]

theorem extension (gains : before.Gains deeds after) : before.Extends after where
  current := gains.current
  aliases := gains.aliases
  reader := gains.reader
  kept name expander held := (gains.vars name expander).mpr (.inl held)
  plain name expander absent held := by
    rcases (gains.vars name expander).mp held with old | ⟨_, plain, member⟩
    · rw [absent] at old
      cases old
    · exact ⟨plain, gains.home name member⟩
  keywords := gains.older

variable {spaces : Namespaces} {name : Symbol}

theorem define_held {expander : Option Expander} (home : name.ns = some spaces.current)
    (held : spaces.vars.get? name = some expander) : spaces.Gains [.define name] spaces := by
  refine ⟨rfl, rfl, rfl, fun other given => ⟨.inl, ?_⟩, ?_, List.prefix_refl _, by simp⟩
  · rintro (old | ⟨absent, _, member⟩)
    · exact old
    · cases List.mem_singleton.mp member
      rw [held] at absent
      cases absent
  · intro other member
    cases List.mem_singleton.mp member
    exact home

theorem define_absent (home : name.ns = some spaces.current) (absent : spaces.vars.get? name = none) :
    spaces.Gains [.define name] { spaces with vars := spaces.vars.insert name none } := by
  refine ⟨rfl, rfl, rfl, fun other given => ?_, ?_, List.prefix_refl _, by simp⟩
  · rw [Table.get?_insert]
    by_cases same : other = name
    · simp [same, absent, eq_comm]
    · simp [same]
  · intro other member
    cases List.mem_singleton.mp member
    exact home

/-- A plain var of the current namespace is added, unless there is one of its name. -/
theorem internVar {var : Var} (unaliased : spaces.aliases.get? (spaces.current, spaces.current) = none)
    (answer : Namespaces.internVar (name.withNs spaces.current) spaces = (var, after)) :
    spaces.Gains [.define var.name] after := by
  have qualified : spaces.qualify (name.withNs spaces.current) = name.withNs spaces.current := by
    simp [qualify, Symbol.withNs, unaliased]
  simp only [Namespaces.internVar, findVar, lookup, qualified] at answer
  cases held : spaces.vars.get? (name.withNs spaces.current) with
  | some expander =>
    rw [held] at answer
    -- The var belongs to the current namespace, so it is the one of the definition.
    have own : (name.withNs spaces.current).ns = some (spaces.owner (name.withNs spaces.current)) := rfl
    rw [Option.map_some] at answer
    dsimp only at answer
    rw [if_pos own] at answer
    cases answer
    exact define_held rfl held
  | none =>
    rw [held] at answer
    cases answer
    exact define_absent rfl held

theorem internKeyword {given : Symbol} (answer : Namespaces.internKeyword name spaces = (given, after)) :
    spaces.Gains [.keyword given] after := by
  unfold Namespaces.internKeyword at answer
  split at answer
  next held =>
    have member : name ∈ spaces.keywords := by simpa using held
    cases answer
    refine ⟨rfl, rfl, rfl, by simp, by simp, List.prefix_refl _, fun other => ⟨.inl, ?_⟩⟩
    rintro (old | same)
    · exact old
    · cases List.mem_singleton.mp same
      exact member
  next =>
    cases answer
    exact ⟨rfl, rfl, rfl, by simp, by simp, List.prefix_append .., by simp⟩

mutual

/-- What is gained by the keywords of a constant. -/
theorem constant (form : Form) {value : Datum} {before after : Namespaces}
    (answer : form.constant Namespaces.internKeyword before = (value, after)) :
    before.Gains (value.keywords.map .keyword) after := by
  cases form with
  | atom held span =>
    cases held with
    | keyword name =>
      cases answer
      exact internKeyword rfl
    | _ =>
      cases answer
      exact .refl _
  | seq shape items span =>
    cases answer
    exact constants items rfl
  | map entries span =>
    cases answer
    exact entryConstants entries rfl
termination_by structural form

theorem constants (items : List Form) {values : List Datum} {before after : Namespaces}
    (answer : Form.constants Namespaces.internKeyword items before = (values, after)) :
    before.Gains ((Datum.itemKeywords values).map .keyword) after := by
  cases items with
  | nil =>
    cases answer
    exact .refl _
  | cons item items =>
    cases answer
    rw [Datum.itemKeywords, List.map_append]
    exact (constant item rfl).trans (constants items rfl)
termination_by structural items

theorem entryConstants (entries : List (Form × Form)) {values : List (Datum × Datum)}
    {before after : Namespaces}
    (answer : Form.entryConstants Namespaces.internKeyword entries before = (values, after)) :
    before.Gains ((Datum.entryKeywords values).map .keyword) after := by
  cases entries with
  | nil =>
    cases answer
    exact .refl _
  | cons entry entries =>
    cases answer
    rw [Datum.entryKeywords, List.map_append, List.map_append]
    exact ((constant entry.1 rfl).trans (constant entry.2 rfl)).trans (entryConstants entries rfl)
termination_by structural entries

end

end Gains

end Namespaces

/-! ### Deeds of traces and expressions -/

/-- What the host was asked for on account of an expression. -/
def Expr.deeds (expr : Expr) : List Deed := expr.walk.flatMap fun sub => sub.node.deeds

theorem Expr.deeds_eq (expr : Expr) :
    expr.deeds = expr.node.deeds ++ expr.children.flatMap Expr.deeds := by
  rw [deeds, walk_eq, List.flatMap_cons, List.flatMap_assoc]
  rfl

def Event.deeds {σ : Type} : Event σ → List Deed
  | visit _ expr => expr.deeds
  | deed asked => [asked]

theorem Event.flatMap_deeds {σ : Type} (deeds : List Deed) :
    (deeds.map Event.deed).flatMap (Event.deeds (σ := σ)) = deeds := by
  simp [List.flatMap_map, Event.deeds]

/-- What is told of expressions names their deeds. -/
theorem Tells.deeds {σ : Type} {form : Form} {exprs : List Expr} {trace : List (Event σ)}
    (tells : Tells form exprs trace) : trace.flatMap Event.deeds = exprs.flatMap Expr.deeds := by
  induction tells with
  | nil => rfl
  | visit moment _ ih => rw [List.flatMap_cons, List.flatMap_cons, ih, Event.deeds]
  | node located _ _ ihInside ihRest =>
    rw [List.flatMap_append, List.flatMap_append, Event.flatMap_deeds, ihInside, ihRest, List.flatMap_cons,
      Expr.deeds_eq, List.append_assoc]

/-! ### Analyses over namespaces -/

variable {start : Namespaces}

/-- Whatever happens, the current namespace and the aliases stay. -/
theorem Namespaces.fixed_of_reaches {spaces : Namespaces}
    (reached : Namespaces.host.Reaches start spaces) :
    spaces.current = start.current ∧ spaces.aliases = start.aliases :=
  holds_of_reaches (P := fun spaces => spaces.current = start.current ∧ spaces.aliases = start.aliases)
    ⟨rfl, rfl⟩ (fun _ _ fixed => fixed) (fun _ _ fixed => fixed) reached

/-- An answer is given without a change of the namespaces. -/
def Namespaces.Unmoved (spaces : Namespaces) : EStateM.Result Diagnostic Namespaces α → Prop
  | .ok _ world => world = spaces
  | .error _ world => world = spaces

theorem Namespaces.unmoved_of_expandOnce {spaces : Namespaces} {form : Form}
    {answer : EStateM.Result Diagnostic Namespaces Form}
    (given : Namespaces.host.expandOnce form spaces = answer) : spaces.Unmoved answer := by
  subst given
  simp only [Namespaces.host]
  split <;> rfl

theorem Namespaces.unmoved_of_readFragment {spaces : Namespaces} {text : String} {span : Span}
    {answer : EStateM.Result Diagnostic Namespaces (List Form)}
    (given : Namespaces.host.readFragment text span spaces = answer) : spaces.Unmoved answer := by
  subst given
  simp only [Namespaces.host]
  split <;> rfl

/-- What the namespaces have gained when an analysis ends. -/
def Gained (spaces : Namespaces) : EStateM.Result Halt (State Namespaces) Expr → Prop
  | .ok expr after => spaces.Gains expr.deeds after.world
  | .error _ after => ∃ deeds, spaces.Gains deeds after.world

section

variable {setting : Setting Namespaces} {self : Recursion Namespaces}
  {before after : State Namespaces} {trace : List (Event Namespaces)}

theorem Move.gains (hosted : setting.host = Namespaces.host)
    (unaliased : setting.start.aliases.get? (setting.start.current, setting.start.current) = none)
    (visits : ∀ moment : Moment Namespaces, moment.state.Proper setting.host setting.start →
      Gained moment.state.world (moment.outcome self))
    (proper : before.Proper setting.host setting.start) (move : Move setting self before trace after) :
    before.world.Gains (trace.flatMap Event.deeds) after.world := by
  cases move with
  | scopes named => exact .refl _
  | read answer =>
    rw [hosted] at answer
    cases Namespaces.unmoved_of_readFragment answer
    exact .refl _
  | @define asked _ _ _ name reached answer =>
    have here := proper.reached
    rw [hosted] at here reached answer
    obtain ⟨current, aliases⟩ := Namespaces.fixed_of_reaches here
    have same : asked.current = before.world.current :=
      (Namespaces.fixed_of_reaches reached).1.trans current.symm
    have unaliased : before.world.aliases.get? (before.world.current, before.world.current) = none := by
      rw [current, aliases]
      exact unaliased
    have answer : Namespaces.internVar (name.withNs asked.current) before.world = _ := answer
    rw [same] at answer
    exact .internVar unaliased answer
  | @keywords value _ _ part answer =>
    rw [hosted] at answer
    rw [Event.flatMap_deeds]
    exact .constant part answer
  | visit moment makes given =>
    have gained := visits moment proper
    rw [given] at gained
    rw [List.flatMap_singleton]
    exact gained

theorem Path.gains (hosted : setting.host = Namespaces.host)
    (unaliased : setting.start.aliases.get? (setting.start.current, setting.start.current) = none)
    (steady : Steady setting.host setting.start self)
    (visits : ∀ moment : Moment Namespaces, moment.state.Proper setting.host setting.start →
      Gained moment.state.world (moment.outcome self))
    (path : Path setting self before trace after) (fits : setting.Fits before) :
    before.world.Gains (trace.flatMap Event.deeds) after.world := by
  induction path with
  | done => exact .refl _
  | step move _ ih =>
    rw [List.flatMap_append]
    exact (move.gains hosted unaliased visits fits.proper).trans (ih (move.fits steady fits))

end

/-- However deep it goes, an analysis gains what it tells of. -/
theorem analyzeForm_gained {config : Config}
    (unaliased : start.aliases.get? (start.current, start.current) = none) (depth : Nat)
    (moment : Moment Namespaces) (proper : moment.state.Proper Namespaces.host start) :
    Gained moment.state.world (moment.outcome (analyzeForm ⟨Namespaces.host, config⟩ depth)) := by
  induction depth generalizing moment with
  | zero => exact ⟨[], .refl _⟩
  | succ depth ih =>
    have steady : Steady Namespaces.host start (analyzeForm ⟨Namespaces.host, config⟩ depth) :=
      analyzeForm_steady depth
    generalize ended : moment.outcome (analyzeForm ⟨Namespaces.host, config⟩ (depth + 1)) = result
    rcases analyzeForm_succ steady proper ended with ⟨_, expands⟩ | ⟨_, ending⟩
    · have onward (expansion : Form) (world : Namespaces)
          (expanded : Namespaces.host.expandOnce moment.form moment.state.world = .ok expansion world) :
          Gained moment.state.world ((moment.expanding expansion world).outcome
            (analyzeForm ⟨Namespaces.host, config⟩ depth)) := by
        cases Namespaces.unmoved_of_expandOnce expanded
        exact ih _ (proper.expanding expanded)
      cases expands with
      | ok expanded given =>
        have gained := onward _ _ expanded
        rw [given] at gained
        exact gained
      | exhausted expanded failed =>
        have gained := onward _ _ expanded
        rw [failed] at gained
        exact gained
      | refused expanded failed =>
        have gained := onward _ _ expanded
        rw [failed] at gained
        exact gained
      | unexpanded failed =>
        cases Namespaces.unmoved_of_expandOnce failed
        exact ⟨[], .refl _⟩
    · cases ending with
      | ok path holds =>
        obtain ⟨_, rfl, tells⟩ := holds
        have gains := path.gains rfl unaliased steady ih (Moment.fits proper)
        rw [tells.deeds] at gains
        simpa [Gained] using gains
      | breaks path breaks =>
        have gains := path.gains rfl unaliased steady ih (Moment.fits proper)
        cases breaks with
        | fault => exact ⟨_, gains⟩
        | broken => exact ⟨_, gains⟩
        | unread located reached answer =>
          cases Namespaces.unmoved_of_readFragment answer
          exact ⟨_, gains⟩
      | fails moment path makes failed =>
        have gains := path.gains rfl unaliased steady ih (Moment.fits proper)
        have rest := ih moment makes.proper
        rw [failed] at rest
        obtain ⟨deeds, rest⟩ := rest
        exact ⟨_, gains.trans rest⟩

theorem Expr.define_mem_deeds {expr : Expr} {name : Symbol} :
    .define name ∈ expr.deeds ↔
      ∃ sub ∈ expr.walk, ∃ var value, sub.node = .define var value ∧ var.name = name := by
  rw [deeds, List.mem_flatMap]
  refine exists_congr fun sub => and_congr_right fun _ => ?_
  cases sub.node <;> simp [Node.deeds, eq_comm]

theorem Expr.keyword_mem_deeds {expr : Expr} {name : Symbol} :
    .keyword name ∈ expr.deeds ↔
      ∃ sub ∈ expr.walk, ∃ value lifted, sub.node = .literal value lifted ∧ name ∈ value.keywords := by
  rw [deeds, List.mem_flatMap]
  refine exists_congr fun sub => and_congr_right fun _ => ?_
  cases sub.node <;> simp [Node.deeds]

/-- The analysis of a form only adds to the namespaces, whether it is accepted or not: plain vars of the
current namespace, and keywords. If it is accepted, the new vars are those that its expression defines,
and the new keywords those in the constants of the expression. -/
theorem Session.analyze_additions {config : Config} {depth : Nat} {form : Form}
    {session after : Session Namespaces} {result : Except Halt Analysis}
    (unaliased : session.world.aliases.get? (session.world.current, session.world.current) = none)
    (run : (analyze ⟨Namespaces.host, config⟩ depth form).run session = (result, after)) :
    session.world.Extends after.world ∧
      ∀ analysis, result = .ok analysis →
        (∀ name, session.world.vars.get? name = none →
          ((after.world.vars.get? name).isSome ↔ ∃ expr ∈ analysis.expr.walk,
            ∃ var value, expr.node = .define var value ∧ var.name = name)) ∧
        (∀ keyword, keyword ∉ session.world.keywords →
          (keyword ∈ after.world.keywords ↔ ∃ expr ∈ analysis.expr.walk,
            ∃ value lifted, expr.node = .literal value lifted ∧ keyword ∈ value.keywords)) := by
  have gained : Gained session.world (analyzeForm ⟨Namespaces.host, config⟩ depth .topLevel form
      ⟨session.world, .initial, session.names, []⟩) :=
    analyzeForm_gained unaliased depth (session.moment form) (session.moment_proper form)
  change analyze ⟨Namespaces.host, config⟩ depth form session = _ at run
  unfold analyze at run
  generalize analyzeForm _ depth _ _ _ = outcome at gained run
  cases outcome with
  | error halt state =>
    cases run
    obtain ⟨deeds, gains⟩ := gained
    exact ⟨gains.extension, nofun⟩
  | ok expr state =>
    cases run
    refine ⟨gained.extension, ?_⟩
    rintro _ ⟨⟩
    constructor
    · intro name absent
      rw [← Expr.define_mem_deeds, Option.isSome_iff_exists]
      simp [gained.vars, absent]
    · intro keyword absent
      rw [← Expr.keyword_mem_deeds, gained.keywords]
      simp [absent]

/-- `(defn f [x] :k)`. -/
def definition : Form :=
  let symbol (name : String) : Form := .symbol (.simple name) .synthetic
  .list [symbol "defn", symbol "f", .vector [symbol "x"] .synthetic,
    .atom (.keyword (.simple "k")) .synthetic] .synthetic

/-- The expansion of `definition` adds a plain var and a keyword, as the expression says. -/
theorem definition_additions : ∃ analysis after,
    (Session.analyze ⟨Namespaces.host, .standard⟩ 6 definition).run (.start Standard.namespaces) =
      (.ok analysis, after) ∧
    Standard.namespaces.Extends after.world ∧
    (∃ expr ∈ analysis.expr.walk, ∃ var value, expr.node = .define var value ∧
      var.name = .qualified "user" "f") ∧
    (∃ expr ∈ analysis.expr.walk, ∃ value lifted, expr.node = .literal value lifted ∧
      .simple "k" ∈ value.keywords) := by
  have unaliased : Standard.namespaces.aliases.get?
      (Standard.namespaces.current, Standard.namespaces.current) = none := by decide +kernel
  have undefined : Standard.namespaces.vars.get? (.qualified "user" "f") = none := by decide +kernel
  have unknown : .simple "k" ∉ Standard.namespaces.keywords := by decide +kernel
  have computed : (Session.analyze ⟨Namespaces.host, .standard⟩ 6 definition).run
      (.start Standard.namespaces) |> fun run => run.1.toOption.isSome ∧
        (run.2.world.vars.get? (.qualified "user" "f")).isSome ∧
        .simple "k" ∈ run.2.world.keywords := by
    decide +kernel
  generalize run : (Session.analyze ⟨Namespaces.host, .standard⟩ 6 definition).run
    (.start Standard.namespaces) = outcome at computed
  obtain ⟨result, after⟩ := outcome
  obtain ⟨accepted, defined, taken⟩ := computed
  obtain ⟨analysis, found⟩ := Option.isSome_iff_exists.mp accepted
  obtain rfl := ok_of_toOption found
  obtain ⟨extension, added⟩ := Session.analyze_additions unaliased run
  obtain ⟨vars, keywords⟩ := added analysis rfl
  refine ⟨analysis, after, rfl, extension, ?_, ?_⟩
  · exact (vars _ undefined).mp defined
  · exact (keywords _ unknown).mp taken

end LispScope
