import LispScope.Host.Namespaces
import LispScope.Proofs.Outcome

/-!
# What a name means to the tables and to the analysis

The analysis qualifies a symbol and then asks the tables for it, and the tables qualify whatever they
are asked for; an expansion qualifies only once. The two agree about a symbol that is *settled*: the
namespace it is taken to stands for itself. An alias of an alias, or an alias that is spelled like the
current namespace or like the core, makes symbols that are not. Where such a symbol heads a call that
the analysis takes for a macro call and the tables do not, the call expands to itself, and no depth is
enough to analyze it.
-/
namespace LispScope

namespace Namespaces

variable {spaces : Namespaces} {symbol : Symbol}

/-- The namespace that a namespace's name stands for in the current namespace. -/
def meaning (spaces : Namespaces) (ns : String) : String :=
  (spaces.aliases.get? (spaces.current, ns)).getD ns

/-- The namespace that the symbol is taken to is no alias for another one. -/
def Settled (spaces : Namespaces) (symbol : Symbol) : Prop :=
  ∀ ns ∈ (spaces.qualify symbol).ns, spaces.meaning ns = ns

instance (spaces : Namespaces) (symbol : Symbol) : Decidable (spaces.Settled symbol) :=
  inferInstanceAs (Decidable (∀ ns ∈ (spaces.qualify symbol).ns, spaces.meaning ns = ns))

theorem qualify_withNs (spaces : Namespaces) (symbol : Symbol) (ns : String) :
    spaces.qualify (symbol.withNs ns) = symbol.withNs (spaces.meaning ns) := by
  simp only [qualify, meaning, Symbol.withNs]
  cases spaces.aliases.get? (spaces.current, ns) <;> rfl

theorem exists_qualify_eq (spaces : Namespaces) (symbol : Symbol) :
    ∃ ns, spaces.qualify symbol = symbol.withNs ns := by
  rcases symbol with ⟨_ | ns, name⟩
  · simp only [qualify]
    split
    · exact ⟨coreNs, rfl⟩
    · exact ⟨spaces.current, rfl⟩
  · exact ⟨spaces.meaning ns, spaces.qualify_withNs ⟨none, name⟩ ns⟩

theorem qualify_qualify_iff :
    spaces.qualify (spaces.qualify symbol) = spaces.qualify symbol ↔ spaces.Settled symbol := by
  obtain ⟨ns, taken⟩ := spaces.exists_qualify_eq symbol
  rw [Settled, taken, qualify_withNs]
  simp [Symbol.withNs]

theorem findVar_qualify_iff :
    spaces.findVar (spaces.qualify symbol) = spaces.findVar symbol ↔
      spaces.Settled symbol ∨
        spaces.findVar (spaces.qualify symbol) = none ∧ spaces.findVar symbol = none := by
  constructor
  · intro agrees
    cases found : spaces.findVar symbol with
    | none => exact .inr ⟨agrees.trans found, rfl⟩
    | some var =>
      -- A var carries the name it was looked up under, so the two names are the same.
      obtain ⟨_, _, once⟩ := lookup_eq_some_of_findVar found
      obtain ⟨_, _, twice⟩ := lookup_eq_some_of_findVar (agrees.trans found)
      left
      rw [← qualify_qualify_iff]
      exact (congrArg Var.name twice).symm.trans (congrArg Var.name once)
  · rintro (settled | ⟨twice, once⟩)
    · rw [← qualify_qualify_iff] at settled
      simp only [findVar, lookup, settled]
    · rw [twice, once]

/-- The expander that the tables hold under a qualified name. -/
def expander? (spaces : Namespaces) (name : Symbol) : Option Expander :=
  (spaces.vars.get? name).join

theorem expandOnce_call (spaces : Namespaces) (symbol : Symbol) (args : List Form)
    (place span : Span) :
    spaces.expandOnce (.list (.symbol symbol place :: args) span) =
      match spaces.expander? (spaces.qualify symbol) with
      | some expander => expander (.list (.symbol symbol place :: args) span)
      | none => .ok (.list (.symbol symbol place :: args) span) := by
  have head : (Form.list (.symbol symbol place :: args) span).head? = some symbol := rfl
  simp only [expandOnce, head, Option.bind_some, lookup, expander?]
  rcases spaces.vars.get? (spaces.qualify symbol) with _ | _ | expander <;> rfl

theorem exists_expander_of_isMacro {var : Var} (found : spaces.findVar symbol = some var)
    (isMacro : var.isMacro = true) :
    var.name = spaces.qualify symbol ∧ ∃ expander, spaces.expander? var.name = some expander := by
  obtain ⟨expander, held, rfl⟩ := lookup_eq_some_of_findVar found
  obtain ⟨expander, rfl⟩ := Option.isSome_iff_exists.mp isMacro
  exact ⟨rfl, expander, congrArg Option.join held⟩

end Namespaces

open AnalysisM

variable {σ : Type}

/-- A call that the analysis takes for a macro call and that the host expands to itself is analyzed
again and again, however deep the analysis may go. -/
theorem analyzeForm_exhausted (analyzer : Analyzer σ) (state : State σ) {symbol : Symbol}
    {args : List Form} {place span : Span} {lineage : Lineage} {var : Var}
    (ordinary : Special.ofSymbol? symbol = none)
    (found : analyzer.host.findVar state.world (analyzer.host.qualify state.world symbol) = some var)
    (isMacro : var.isMacro = true)
    (unchanged : analyzer.host.expandOnce (.list (.symbol symbol place :: args) span) state.world =
      .ok (.list (.symbol symbol place :: args) span) state.world)
    (depth : Nat) (cx : Context) (path : state.tree.lineage cx.frame = some lineage)
    (free : lineage.resolve symbol = none) :
    analyzeForm analyzer depth cx (.list (.symbol symbol place :: args) span) state =
      .error .exhausted state := by
  induction depth generalizing cx state with
  | zero => rfl
  | succ depth ih =>
    rcases var with ⟨name, _ | _⟩
    · cases isMacro
    have resolved : (resolve span cx symbol : AnalysisM σ _) state = .ok none state :=
      readTree_ok.mpr ⟨by simp [path, free], rfl⟩
    have asked : findVar analyzer symbol state = .ok (some ⟨name, true⟩) state :=
      askHost_ok.mpr ⟨found, rfl⟩
    -- The analysis comes back to the call, one level deeper and with one more expansion on the stack.
    let call : Form := .list (.symbol symbol place :: args) span
    let pushed : State σ := state.pushed call
    have again : analyzeForm analyzer depth cx call pushed = .error .exhausted pushed :=
      ih pushed found unchanged cx path
    calc analyzeForm analyzer (depth + 1) cx (.list (.symbol symbol place :: args) span) state
      _ = analyzeApplication analyzer (analyzeForm analyzer depth) cx (.symbol symbol place) args
            span state := by
        simp only [analyzeForm, analyzeStep, analyzeList, Form.symbol?, Option.bind_some, ordinary]
      _ = analyzeMacroCall analyzer (analyzeForm analyzer depth) cx call state := by
        simp only [analyzeApplication, Form.symbol?]
        exact (bind_of_ok resolved).trans (bind_of_ok asked)
      _ = closed (analyzeForm analyzer depth cx call pushed) :=
        analyzeMacroCall_eq.trans (congrArg closed (analyzeExpansion_of_ok unchanged))
      _ = .error .exhausted state := by rw [again, closed, popped_pushed]

/-- A name means the same to the analysis and to the tables exactly if it is settled, or is unknown to
both. The macro that the analysis sees in the head of a call is the one that is expanded, provided that
the head is settled. If the tables hold no macro for a head that the analysis takes for one, the call
comes back as it is and its analysis finds no end. -/
theorem Namespaces.meanings_agree (spaces : Namespaces) (symbol : Symbol) :
    (spaces.findVar (spaces.qualify symbol) = spaces.findVar symbol ↔
      spaces.Settled symbol ∨
        spaces.findVar (spaces.qualify symbol) = none ∧ spaces.findVar symbol = none) ∧
    ∀ var, spaces.findVar (spaces.qualify symbol) = some var → var.isMacro = true →
      ∃ expander, spaces.expander? var.name = some expander ∧
      ∀ args place span,
        (spaces.Settled symbol →
          spaces.expandOnce (.list (.symbol symbol place :: args) span) =
            expander (.list (.symbol symbol place :: args) span)) ∧
        (spaces.expander? (spaces.qualify symbol) = none →
          spaces.expandOnce (.list (.symbol symbol place :: args) span) =
            .ok (.list (.symbol symbol place :: args) span) ∧
          (Special.ofSymbol? symbol = none → ∀ config depth names expansions,
            (Session.analyze ⟨host, config⟩ depth (.list (.symbol symbol place :: args) span)).run
              ⟨spaces, names, expansions⟩ = (.error .exhausted, ⟨spaces, names, []⟩))) := by
  refine ⟨findVar_qualify_iff, fun var found isMacro => ?_⟩
  obtain ⟨name, expander, held⟩ := exists_expander_of_isMacro found isMacro
  refine ⟨expander, held, fun args place span => ⟨fun settled => ?_, fun missing => ?_⟩⟩
  · rw [name, qualify_qualify_iff.mpr settled] at held
    rw [expandOnce_call, held]
  · have unchanged := spaces.expandOnce_call symbol args place span
    rw [missing] at unchanged
    refine ⟨unchanged, fun ordinary config depth names expansions => ?_⟩
    -- At the top of a form there is no local name in sight.
    have free : Lineage.resolve [(FrameTree.rootId, FrameTree.initial.frames[0])] symbol = none := by
      rcases symbol with ⟨_ | _, name⟩ <;> rfl
    have expansion : host.expandOnce (.list (.symbol symbol place :: args) span) spaces =
        .ok (.list (.symbol symbol place :: args) span) spaces := by
      simp only [host, unchanged]
    have endless := analyzeForm_exhausted ⟨host, config⟩ ⟨spaces, .initial, names, []⟩ ordinary found
      isMacro expansion depth .topLevel rfl free
    simp only [Session.analyze, StateT.run, endless]

/-- `a` is an alias for `b` and `b` is one for `c`, which has a macro `m`. -/
def Namespaces.detour : Namespaces :=
  let spaces := ((inside "user").defineMacro (.qualified "c" "m") (.constant (.atom .nil .synthetic))).2
  (spaces.addAlias "a" "b").addAlias "b" "c"

/-- In `detour` the analysis takes `a/m` for the macro that `b/m` is, while the tables do not know it;
so `(a/m)` is never analyzed, and `(b/m)` is nil. -/
theorem Namespaces.detour_meanings :
    detour.findVar (detour.qualify (.qualified "a" "m")) ≠ detour.findVar (.qualified "a" "m") ∧
    (∀ depth, (Session.analyze ⟨host, .standard⟩ depth
      (.list [.symbol (.qualified "a" "m") .synthetic] .synthetic)).run (.start detour) =
        (.error .exhausted, .start detour)) ∧
    detour.expandOnce (.list [.symbol (.qualified "b" "m") .synthetic] .synthetic) =
      .ok (.atom .nil .synthetic) := by
  refine ⟨?_, fun depth => ?_, ?_⟩
  · intro agrees
    rcases (meanings_agree detour (.qualified "a" "m")).1.mp agrees with settled | ⟨unknown, _⟩
    · exact absurd settled (by decide)
    · exact absurd unknown (by decide)
  · obtain ⟨_, _, expansion⟩ := (meanings_agree detour (.qualified "a" "m")).2
      ⟨.qualified "c" "m", true⟩ (by decide) rfl
    exact ((expansion [] .synthetic .synthetic).2 (by rfl)).2 (by decide) .standard depth .initial []
  · obtain ⟨_, held, expansion⟩ := (meanings_agree detour (.qualified "b" "m")).2
      ⟨.qualified "c" "m", true⟩ (by decide) rfl
    rw [(expansion [] .synthetic .synthetic).1 (by decide)]
    cases held
    rfl

end LispScope
