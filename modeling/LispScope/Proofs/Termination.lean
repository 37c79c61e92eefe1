import LispScope.Proofs.Independence
import LispScope.Proofs.Qualification
import LispScope.Proofs.Weight

/-!
# Analysis over the standard namespaces comes to an end

Main statement: `Session.analyze_settles`. Whatever forms a session has seen before, a depth of one
more than the weight of a form is enough to analyze it, and no greater depth changes the answer.

Namespaces that begin as the standard ones never get another macro, alias or reader. Under this
invariant everything that a form brings in is lighter than the form, with one exception: `defn` writes
its name twice, so where the name is a heavy form the expansion may be heavier than the call. But then
it is no symbol, and the definition is refused before anything else is looked at.
-/
namespace LispScope

/-! ### What stays of the standard namespaces -/

theorem Namespaces.expander?_define (spaces : Namespaces) (symbol name : Symbol)
    (expander : Option Expander) :
    (spaces.define symbol expander).2.expander? name =
      if name = symbol.withNs (spaces.owner symbol) then expander else spaces.expander? name := by
  simp only [expander?, define, Table.get?_insert]
  split <;> rfl

namespace Standard

/-- All macros are standard ones, whatever namespace they are in. -/
def Ordinary (spaces : Namespaces) : Prop :=
  ∀ name expander, spaces.expander? name = some expander → (name.name, expander) ∈ macros

theorem Ordinary.define {spaces : Namespaces} {symbol : Symbol} {expander : Option Expander}
    (ordinary : Ordinary spaces) (standard : ∀ given ∈ expander, (symbol.name, given) ∈ macros) :
    Ordinary (spaces.define symbol expander).2 := by
  intro name found held
  rw [Namespaces.expander?_define] at held
  split at held
  next same =>
    rw [same]
    exact standard found held
  next => exact ordinary name found held

theorem ordinary_namespaces : Ordinary namespaces := by
  have functions (names : List String) (spaces : Namespaces) (ordinary : Ordinary spaces) :
      Ordinary (spaces.defineCoreFns names) := by
    induction names generalizing spaces with
    | nil => exact ordinary
    | cons name names ih => exact ih _ (ordinary.define nofun)
  have given (added : List (String × Expander)) (known : ∀ entry ∈ added, entry ∈ macros)
      (spaces : Namespaces) (ordinary : Ordinary spaces) :
      Ordinary (added.foldl (fun spaces entry =>
        (spaces.defineMacro (.qualified coreNs entry.1) entry.2).2) spaces) := by
    induction added generalizing spaces with
    | nil => exact ordinary
    | cons entry added ih =>
      obtain ⟨first, known⟩ := List.forall_mem_cons.mp known
      refine ih known _ (ordinary.define ?_)
      rintro _ ⟨⟩
      exact first
  exact given macros (fun _ member => member) _ (functions _ _ nofun)

/-- What never changes of the standard namespaces. -/
structure Kept (spaces : Namespaces) : Prop where
  macros : Ordinary spaces
  aliases : spaces.aliases = .empty
  reader : spaces.reader = some readFragment

theorem kept_of_reaches {spaces : Namespaces}
    (reached : Namespaces.host.Reaches namespaces spaces) : Kept spaces := by
  refine Namespaces.holds_of_reaches ⟨ordinary_namespaces, rfl, rfl⟩ ?_ ?_ reached
  · intro spaces symbol kept
    exact ⟨kept.macros.define nofun, kept.aliases, kept.reader⟩
  · intro spaces keywords kept
    exact ⟨kept.macros, kept.aliases, kept.reader⟩

theorem Kept.settled {spaces : Namespaces} (kept : Kept spaces) (symbol : Symbol) :
    spaces.Settled symbol := by
  intro ns _
  rw [Namespaces.meaning, kept.aliases]
  rfl

/-- A macro call is expanded by the standard macro that its head is spelled like. -/
theorem Kept.expander {spaces : Namespaces} (kept : Kept spaces) {symbol name : Symbol}
    {args : List Form} {place span : Span} {new : Form}
    (found : spaces.findVar (spaces.qualify symbol) = some ⟨name, true⟩)
    (expanded : spaces.expandOnce (.list (.symbol symbol place :: args) span) = .ok new) :
    ∃ expander, (symbol.name, expander) ∈ Standard.macros ∧
      expander (.list (.symbol symbol place :: args) span) = .ok new := by
  obtain ⟨named, expander, held⟩ := Namespaces.exists_expander_of_isMacro found rfl
  -- The analysis qualifies the head twice and the expansion once; without aliases it is all one.
  rw [named, Namespaces.qualify_qualify_iff.mpr (kept.settled symbol)] at held
  rw [Namespaces.expandOnce_call, held] at expanded
  obtain ⟨ns, taken⟩ := spaces.exists_qualify_eq symbol
  have standard := kept.macros _ expander held
  rw [taken] at standard
  exact ⟨expander, standard, expanded⟩

end Standard

/-! ### Expansions are lighter -/

/-- A definition whose name is no symbol. -/
inductive Form.Nameless : Form → Prop
  | intro {place span : Span} {name value : Form} (unnamed : name.symbol? = none) :
      Nameless (.list [.symbol (.simple "def") place, name, value] span)

theorem Form.weight_symbol (name : Symbol) (place : Span) : (Form.symbol name place).weight = 0 := rfl

theorem Form.weight_call (head : Symbol) (items : List Form) (place span : Span) :
    (Form.list (.symbol head place :: items) span).weight =
      1 + Standard.surcharge head.name + weights items := by
  simp only [weight, weights, List.head?_cons, Option.map_some, Option.getD_some, surcharge, symbol?]
  omega

theorem Form.eq_symbol_of_symbol? {form : Form} {symbol : Symbol}
    (named : form.symbol? = some symbol) : ∃ place, form = .symbol symbol place := by
  unfold symbol? at named
  split at named
  · cases named
    exact ⟨_, rfl⟩
  · cases named

namespace Standard

variable {symbol : Symbol} {args : List Form} {place span : Span} {new : Form}

theorem lighter_when (named : symbol.name = "when")
    (expanded : expandWhen (.list (.symbol symbol place :: args) span) = .ok new) :
    new.weight < (Form.list (.symbol symbol place :: args) span).weight := by
  have words : surcharge (Symbol.parse "if").name = 0 ∧ surcharge (Symbol.parse "do").name = 0 ∧
    surcharge "when" = 2 := ⟨rfl, rfl, rfl⟩
  cases args with
  | nil => cases expanded
  | cons condition body =>
    cases expanded
    simp only [headed, Form.weight_call, Form.weights, named]
    omega

theorem lighter_unless (named : symbol.name = "unless")
    (expanded : expandUnless (.list (.symbol symbol place :: args) span) = .ok new) :
    new.weight < (Form.list (.symbol symbol place :: args) span).weight := by
  have words : surcharge (Symbol.parse "when").name = 2 ∧
    surcharge (Symbol.parse "nil?").name = 0 ∧ surcharge "unless" = 4 := ⟨rfl, rfl, rfl⟩
  cases args with
  | nil => cases expanded
  | cons condition body =>
    cases expanded
    simp only [headed, Form.weight_call, Form.weights, named]
    omega

/-- The name of a definition is written twice, which adds nothing if it is a symbol. -/
theorem lighter_defn (named : symbol.name = "defn")
    (expanded : expandDefn (.list (.symbol symbol place :: args) span) = .ok new) :
    new.weight < (Form.list (.symbol symbol place :: args) span).weight ∨ new.Nameless := by
  have words : surcharge (Symbol.parse "def").name = 0 ∧
    surcharge (Symbol.parse "fn*").name = 0 ∧ surcharge "defn" = 2 := ⟨rfl, rfl, rfl⟩
  cases args with
  | nil => cases expanded
  | cons name rest =>
    cases expanded
    cases written : name.symbol? with
    | none => exact .inr (.intro written)
    | some _ =>
      obtain ⟨_, rfl⟩ := Form.eq_symbol_of_symbol? written
      left
      simp only [headed, Form.weight_call, Form.weights, Form.weight_symbol, named]
      omega

theorem lighter_broken (named : symbol.name = "broken")
    (expanded : expandBroken (.list (.symbol symbol place :: args) span) = .ok new) :
    new.weight < (Form.list (.symbol symbol place :: args) span).weight := by
  have words : surcharge (Symbol.parse "if").name = 0 ∧ surcharge "broken" = 1 := ⟨rfl, rfl⟩
  cases expanded
  simp only [headed, Form.weight_call, Form.weights, named]
  omega

/-- The expansion of a standard macro weighs less than the call, or defines nothing. -/
theorem lighter_of_expanded {expander : Expander} (standard : (symbol.name, expander) ∈ macros)
    (expanded : expander (.list (.symbol symbol place :: args) span) = .ok new) :
    new.weight < (Form.list (.symbol symbol place :: args) span).weight ∨ new.Nameless := by
  simp only [macros, List.mem_cons, List.not_mem_nil, or_false, Prod.mk.injEq] at standard
  rcases standard with ⟨named, rfl⟩ | ⟨named, rfl⟩ | ⟨named, rfl⟩ | ⟨named, rfl⟩ | ⟨named, rfl⟩
  · exact .inl (lighter_when named expanded)
  · exact .inl (lighter_unless named expanded)
  · exact lighter_defn named expanded
  · exact .inl (lighter_broken named expanded)
  -- `boom` has no expansion.
  · cases expanded

/-- What is read from a text weighs no more than the text is long. -/
theorem Kept.weight_of_read {spaces after : Namespaces} (kept : Kept spaces) {text : String}
    (read : Namespaces.host.readFragment text span spaces = .ok [new] after) :
    new.weight ≤ text.length := by
  simp only [Namespaces.host, Namespaces.readFragment, kept.reader, readFragment] at read
  cases found : Source.readAll text with
  | error error =>
    rw [found] at read
    cases read
  | ok forms =>
    rw [found] at read
    cases read
    have load := Source.load_readAll found
    simp only [List.map_cons, List.map_nil, List.sum_cons, List.sum_nil, Form.load] at load
    omega

end Standard

/-- Whatever a form brings in weighs less than the form, or defines nothing. -/
theorem Brings.lighter {regime : Regime Namespaces.host} {form new : Form}
    (kept : ∀ spaces, regime.World spaces → Standard.Kept spaces) (brings : Brings regime form new) :
    new.weight < form.weight ∨ new.Nameless ∧ 0 < form.weight := by
  cases brings with
  | supplied supplies =>
    left
    cases supplies with
    | part member within =>
      exact Nat.lt_of_le_of_lt (Form.weight_le_of_within within) (Form.weight_lt_of_mem member)
    | fragment shaped member reached read =>
      have inner := (kept _ reached).weight_of_read read
      have outer := Piece.length_of_mem_split? shaped member
      simp only [Form.weight, Form.weights]
      omega
  | expansion headed reached found expanded =>
    obtain ⟨place, rfl⟩ := Form.eq_symbol_of_symbol? headed
    simp only [Namespaces.host] at expanded
    split at expanded
    next once =>
      cases expanded
      obtain ⟨expander, standard, expanded⟩ := (kept _ reached).expander found once
      refine (Standard.lighter_of_expanded standard expanded).imp_right fun nameless => ⟨nameless, ?_⟩
      rw [Form.weight_call]
      omega
    next => cases expanded

/-! ### Enough depth -/

/-- A definition without a name is refused, whatever its value is. -/
theorem Form.Nameless.follows {σ : Type} {host : Host σ} {regime : Regime host} {allow : Tolerance}
    {config config' : Config} {self self' : Recursion σ} {form : Form} (nameless : form.Nameless) :
    Follows regime allow (analyzeStep ⟨host, config⟩ self) (analyzeStep ⟨host, config'⟩ self') form := by
  obtain ⟨unnamed⟩ := nameless
  intro tree cx boxed scope flags
  refine .bind .askHost ?_
  rintro asked current _ _ rfl
  refine .bind (.settled (DefParts.blames trivial .anywhere)) ?_
  rintro settled parts _ _ ⟨rfl, found⟩
  obtain ⟨_, shaped, found⟩ := exists_of_bind_ok found
  cases shaped
  obtain ⟨_, named, _⟩ := exists_of_bind_ok found
  simp only [DefParts.definable, unnamed] at named
  cases named

/-- Analyses over what comes of the standard namespaces, which do not run out of depth. -/
def Standard.regime : Regime Namespaces.host :=
  .reachable Namespaces.host Standard.namespaces (· ≠ .exhausted) (fun _ _ _ => nofun)
    (fun _ _ => nofun) (fun _ _ _ => nofun) fun _ _ _ _ _ _ _ => nofun

/-- More depth than a form weighs changes nothing. -/
theorem analyzeForm_settles (config : Config) (more : Nat) {depth : Nat} {form : Form}
    (enough : form.weight < depth) :
    Follows Standard.regime .strict (analyzeForm ⟨Namespaces.host, config⟩ depth)
      (analyzeForm ⟨Namespaces.host, config⟩ (depth + more)) form := by
  induction depth generalizing form with
  | zero => cases enough
  | succ depth ih =>
    rw [Nat.succ_add]
    refine analyzeStep_follows (.refl config) fun new brings => ?_
    rcases brings.lighter fun _ => Standard.kept_of_reaches with lighter | ⟨nameless, heavy⟩
    · exact ih (by omega)
    -- However heavy it is, a definition without a name takes a single step.
    · cases depth with
      | zero => omega
      | succ depth =>
        rw [Nat.succ_add]
        exact nameless.follows

namespace Session

/-- A session only ever asks the host what it can be asked. -/
theorem reaches_analyzeAll {σ : Type} {host : Host σ} {start : σ} (config : Config) (depth : Nat)
    (forms : List Form) {session : Session σ} (reached : host.Reaches start session.world) :
    host.Reaches start ((analyzeAll ⟨host, config⟩ depth forms).run session).2.world := by
  induction forms generalizing session with
  | nil => exact reached
  | cons form forms ih =>
    rw [analyzeAll_cons]
    have same : config.Alike .strict config := .refl config
    have exhausted : (Regime.any host start).Halts .exhausted := trivial
    exact ih ((analyzeForm_follows same exhausted depth form).analyze rfl rfl reached).kept

/-- A form is analyzed to an end after any other forms. There is an analysis of it or a diagnostic, which
is the answer at every depth that is greater than the weight of the form. -/
theorem analyze_settles (config : Config) (spent : Nat) (earlier : List Form) (form : Form) :
    let analyzer : Analyzer Namespaces := ⟨Namespaces.host, config⟩
    let session := ((analyzeAll analyzer spent earlier).run (.start Standard.namespaces)).2
    ∃ result after,
      ((∃ analysis, result = .ok analysis) ∨ ∃ diagnostic, result = .error (.refused diagnostic)) ∧
      ∀ more, (analyze analyzer (form.weight + 1 + more) form).run session = (result, after) := by
  intro analyzer session
  have reached : Namespaces.host.Reaches Standard.namespaces session.world :=
    reaches_analyzeAll config spent earlier .start
  have answer (more : Nat) : Answer Standard.regime .strict
      ((analyze analyzer (form.weight + 1) form).run session)
      ((analyze analyzer (form.weight + 1 + more) form).run session) :=
    (analyzeForm_settles config more (Nat.lt_succ_self _)).analyze rfl rfl reached
  have same (more : Nat) := Prod.ext (answer more).results.eq.symm ((answer more).sessions.eq rfl)
  have halts := (answer 0).halts
  generalize (analyze analyzer (form.weight + 1) form).run session = outcome at same halts
  refine ⟨outcome.1, outcome.2, ?_, same⟩
  cases ended : outcome.1 with
  | ok analysis => exact .inl ⟨analysis, rfl⟩
  | error halt =>
    cases halt with
    | exhausted => exact absurd rfl (halts .exhausted ended)
    | refused diagnostic => exact .inr ⟨diagnostic, rfl⟩

end Session

end LispScope
