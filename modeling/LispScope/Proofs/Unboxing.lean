import LispScope.Host.Standard
import LispScope.Proofs.Accord

/-!
# More unboxed operators

Main statement: `Session.analyze_unboxing`. If more operators take their operands unboxed, then the
same forms are refused for the same reasons, and all others have the same results, in which boxes may
be missing but none is new.
-/
namespace LispScope

variable {σ : Type}

/-- Options that differ in the operators that take their operands unboxed. -/
theorem Config.alike_of_subset {config config' : Config} (same : config'.maxParams = config.maxParams)
    (included : config.unboxedOps ⊆ config'.unboxedOps) : config.Alike ⟨0, true⟩ config' := by
  refine ⟨same, fun name => ⟨fun boxed => ?_, nofun⟩⟩
  simp only [isUnboxedOp, Bool.not_eq_true', List.contains_eq_mem, decide_eq_false_iff_not] at boxed ⊢
  exact fun member => boxed (included member)

/-- More unboxed operations change nothing but the flags of unboxed calls and uses. Two configurations,
one of which unboxes more, give the same error, or results that are alike, and leave the same session.
With the larger one a binding needs a box, or has a boxed use, only if it does so with the smaller one,
and it keeps its unboxed uses. -/
theorem Session.analyze_unboxing (host : Host σ) (config config' : Config)
    (same : config'.maxParams = config.maxParams) (included : config.unboxedOps ⊆ config'.unboxedOps)
    (depth : Nat) (form : Form) (session : Session σ) :
    let boxed := (Session.analyze ⟨host, config⟩ depth form).run session
    let unboxed := (Session.analyze ⟨host, config'⟩ depth form).run session
    Answers ⟨0, true⟩ boxed.1 unboxed.1 ∧ unboxed.2 = boxed.2 ∧
      ∀ analysis analysis', boxed.1 = .ok analysis → unboxed.1 = .ok analysis' →
        ∀ id binding binding', analysis.tree.binding? id = some binding →
          analysis'.tree.binding? id = some binding' →
            (binding'.needsBox = true → binding.needsBox = true) ∧
            (binding'.hasBoxedUse = true → binding.hasBoxedUse = true) ∧
            (binding.hasUnboxedUse = true → binding'.hasUnboxedUse = true) := by
  intro boxed unboxed
  have configs := Config.alike_of_subset same included
  have exhausted : (Regime.any host session.world).Halts .exhausted := trivial
  have names : session.names.Alike ⟨0, true⟩ session.names := rfl
  have answer := (analyzeForm_follows configs exhausted depth form).analyze rfl names .start
  refine ⟨answer.results, answer.sessions.eq rfl, ?_⟩
  intro analysis analysis' analyzed analyzed' id binding binding' held held'
  have related := (answer.results.alike analyzed analyzed').tree.bindings id
  rw [held, held'] at related
  cases related with
  | some flags => exact ⟨flags.needsBox.1, flags.hasBoxedUse.1, flags.hasUnboxedUse.1⟩

/-- `(let* [x (inc 1)])`. -/
def increased : Form :=
  let symbol (name : String) : Form := .symbol (.simple name) .synthetic
  .list [symbol "let*", .vector [symbol "x",
    .list [symbol "inc", .atom (.int 1) .synthetic] .synthetic] .synthetic] .synthetic

/-- In `increased` the name needs a box only if `inc` takes its operand boxed. -/
theorem increased_unboxing : ∃ analysis analysis' binding binding',
    ((Session.analyze ⟨Namespaces.host, .boxedOnly⟩ 4 increased).run
      (.start Standard.namespaces)).1 = .ok analysis ∧
    ((Session.analyze ⟨Namespaces.host, .standard⟩ 4 increased).run
      (.start Standard.namespaces)).1 = .ok analysis' ∧
    Answers ⟨0, true⟩ (.ok analysis) (.ok analysis') ∧
    analysis.tree.binding? 0 = some binding ∧ analysis'.tree.binding? 0 = some binding' ∧
    binding.needsBox = true ∧ binding'.needsBox = false := by
  have boxed : ((Session.analyze ⟨Namespaces.host, .boxedOnly⟩ 4 increased).run
      (.start Standard.namespaces)).1.toOption.bind (fun analysis =>
        (analysis.tree.binding? 0).map Binding.needsBox) = some true := by
    decide +kernel
  have unboxed : ((Session.analyze ⟨Namespaces.host, .standard⟩ 4 increased).run
      (.start Standard.namespaces)).1.toOption.bind (fun analysis =>
        (analysis.tree.binding? 0).map Binding.needsBox) = some false := by
    decide +kernel
  simp only [Option.bind_eq_some_iff, Option.map_eq_some_iff] at boxed unboxed
  obtain ⟨analysis, result, binding, held, needed⟩ := boxed
  obtain ⟨analysis', result', binding', held', spared⟩ := unboxed
  have analyzed := ok_of_toOption result
  have analyzed' := ok_of_toOption result'
  obtain ⟨answers, _⟩ := Session.analyze_unboxing Namespaces.host .boxedOnly .standard rfl nofun 4
    increased (.start Standard.namespaces)
  rw [analyzed, analyzed'] at answers
  exact ⟨analysis, analysis', binding, binding', analyzed, analyzed', answers, held, held', needed, spared⟩

end LispScope
