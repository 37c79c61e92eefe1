import LispScope.Proofs.Conduct
import LispScope.Proofs.Expansion

/-!
# Resolution during an analysis

Main statement: `Session.analyze_resolution`. Whatever tree an analysis has come to, the combined search
for an unqualified name agrees with the two separate ones, from every frame, and a qualified symbol is
found by none of them.

An analysis that has not come to an end is met where it enters another one: every analysis that is made
on account of a form begins over a tree that is built, and goes on from it by steps.
-/
namespace LispScope

open AnalysisM

variable {σ : Type} {host : Host σ} {config : Config} {start : σ}

/-- Forms that are the same are alike for every host. -/
def Resemblance.For.exact (host : Host σ) (start : σ) : Resemblance.For host start where
  Like form form' := form = form'
  parts := by
    rintro form _ rfl
    cases form with
    | atom value span => exact .atom value span span
    | seq shape items span => exact .seq shape span span (List.forall₂_refl items)
    | map entries span =>
      have paired (entry : Form × Form) : Paired Eq entry entry := .mk rfl rfl
      exact .map span span (List.forall₂_same.mpr fun entry _ => paired entry)
  expand := by
    rintro call _ world _ rfl
    cases host.expandOnce call world with
    | ok expansion after => exact .ok rfl after
    | error cause after => exact .error cause cause after
  read := by
    rintro whole span _ world text _ ⟨⟩
    cases host.readFragment text span world with
    | ok forms after => exact .ok (List.forall₂_refl forms) after
    | error diagnostic after => exact .error diagnostic diagnostic after

/-- An analysis that begins in a frame of a built tree. -/
structure Moment.Placed (host : Host σ) (start : σ) (moment : Moment σ) : Prop where
  reached : host.Reaches start moment.state.world
  built : moment.state.tree.Built
  inRange : moment.cx.frame < moment.state.tree.frames.size

/-- The tree that is left when an analysis ends, with a result or without one. -/
def finalTree : EStateM.Result Halt (State σ) Expr → FrameTree
  | .ok _ after => after.tree
  | .error _ after => after.tree

/-- However an analysis ends, its tree is made by steps from the one that it began with. -/
theorem Moment.Placed.builds {moment : Moment σ} {self self' : Recursion σ}
    (placed : moment.Placed host start) (keeps : Keeps (.exact host start) self self') :
    moment.state.tree.Builds (finalTree (moment.outcome self)) := by
  have tandem : Tandem host start moment.state.tree _ (self moment.cx moment.form)
      (self' moment.cx moment.form) := keeps placed.inRange rfl
  have finish := tandem moment.state moment.state (.refl placed.reached placed.built) rfl
  unfold Moment.outcome
  generalize self moment.cx moment.form moment.state = result, self' _ _ _ = result' at finish
  cases finish with
  | ok states builds related => exact builds
  | error states builds => exact builds

/-- A tree without frames is not built. -/
theorem FrameTree.not_built_empty : ¬ FrameTree.Built ⟨#[], #[]⟩ := by
  intro built
  have size := Builds.size built
  exact absurd size (by decide)

/-- What an analysis enters is placed as well: could it enter an analysis that is not, then it would
end with a tree that is not built, if that analysis were broken off with such a tree. -/
theorem Enters.placed {outer inner : Moment σ} {depth : Nat}
    (enters : Enters ⟨host, config⟩ (analyzeForm ⟨host, config⟩ depth) outer inner)
    (placed : outer.Placed host start) : inner.Placed host start := by
  by_contra apart
  obtain ⟨bare, empty⟩ : ∃ bare : State σ, bare.tree = ⟨#[], #[]⟩ :=
    ⟨⟨start, ⟨#[], #[]⟩, .initial, []⟩, rfl⟩
  have keeps : Keeps (.exact host start) ((analyzeForm ⟨host, config⟩ depth).breakingOff inner bare)
      (analyzeForm ⟨host, config⟩ depth) := by
    intro tree cx form form' inRange same before before' states here
    -- The analysis that is broken off is not placed, so it is none of those that go on in tandem.
    have other : (⟨cx, form, before⟩ : Moment σ) ≠ inner := by
      rintro rfl
      exact apart ⟨states.reached, states.built, here ▸ inRange⟩
    have kept : (analyzeForm ⟨host, config⟩ depth).breakingOff inner bare cx form before =
        analyzeForm ⟨host, config⟩ depth cx form before :=
      Recursion.outcome_breakingOff_of_ne other bare
    rw [kept]
    exact analyzeForm_tandem config depth inRange same before before' states here
  obtain ⟨stack, ended⟩ := enters bare
  have builds := placed.builds (analyzeStep_tandem config keeps)
  dsimp only at ended
  rw [ended, finalTree, empty] at builds
  exact FrameTree.not_built_empty (placed.built.trans builds)

theorem Made.placed {depth lesser : Nat} {top moment : Moment σ}
    (made : Made ⟨host, config⟩ depth top lesser moment) (placed : top.Placed host start) :
    moment.Placed host start := by
  induction made with
  | top => exact placed
  | entered _ enters ih => exact enters.placed ih

theorem Session.moment_placed (session : Session σ) (form : Form) :
    (session.moment form).Placed host session.world :=
  ⟨.start, .refl _, Nat.one_pos⟩

/-- Every analysis that is made on account of a form begins over a built tree and goes on by steps, and
so the tree of a finished analysis is built. In a built tree, from every frame, the combined search for
an unqualified name agrees with the searches for its bindings and for functions of that name: it fails
where both fail; it finds what the first one finds, unless a function of that name is nearer, and else
what the second one finds; and of the functions that the two leave, one list begins with the other. A
qualified symbol is not found at all. -/
theorem Session.analyze_resolution (host : Host σ) (config : Config) (session : Session σ) (depth : Nat)
    (form : Form) :
    (∀ lesser moment, Made ⟨host, config⟩ depth (session.moment form) lesser moment →
      moment.state.tree.Built ∧
      moment.state.tree.Builds (finalTree (moment.outcome (analyzeForm ⟨host, config⟩ lesser)))) ∧
    (∀ analysis, ((analyze ⟨host, config⟩ depth form).run session).1 = .ok analysis →
      analysis.tree.Built) ∧
    ∀ tree : FrameTree, tree.Built → ∀ frame < tree.frames.size, ∃ lineage,
      tree.lineage frame = some lineage ∧ ∀ name : Symbol,
      (name.isQualified = false →
        (lineage.resolve name = none ↔
          lineage.findBinding true name = none ∧ lineage.findSelf name = none) ∧
        (∀ binding crossed, lineage.resolve name = some ⟨.binding binding, crossed⟩ ↔
          lineage.findBinding true name = some ⟨binding, crossed⟩ ∧
            ∀ own ∈ lineage.findSelf name, crossed.length ≤ own.crossed.length) ∧
        (∀ self crossed, lineage.resolve name = some ⟨.self self, crossed⟩ ↔
          lineage.findSelf name = some ⟨self, crossed⟩ ∧
            ∀ found ∈ lineage.findBinding true name, crossed.length < found.crossed.length) ∧
        ∀ found ∈ lineage.findBinding true name, ∀ own ∈ lineage.findSelf name,
          found.crossed <+: own.crossed ∨ own.crossed <+: found.crossed) ∧
      (name.isQualified = true →
        lineage.resolve name = none ∧ (∀ captures, lineage.findBinding captures name = none) ∧
          lineage.findSelf name = none) := by
  have placed : (session.moment form).Placed host session.world := session.moment_placed form
  refine ⟨fun lesser moment made => ?_, fun analysis given => ?_, fun tree built frame inRange => ?_⟩
  · have placed := made.placed placed
    exact ⟨placed.built, placed.builds (analyzeForm_tandem config lesser)⟩
  · have builds := placed.builds (analyzeForm_tandem config depth)
    change (analyze ⟨host, config⟩ depth form session).1 = _ at given
    unfold analyze at given
    split at given <;> cases given
    next expr after run =>
      change Moment.outcome (session.moment form) _ = _ at run
      rw [run] at builds
      exact builds
  · obtain ⟨lineage, climbed⟩ := built.exists_lineage inRange
    have known (entry : FrameId × Frame) (member : entry ∈ lineage)
        (knows : entry.2.function?.isSome = true) : entry.2.isFunction = true :=
      built.knows _ _ ((FrameTree.lineage_some climbed).2 entry member) knows
    refine ⟨lineage, climbed, fun name => ⟨lineage.resolve_spec known, fun qualified => ?_⟩⟩
    refine ⟨?_, built.findBinding_qualified climbed qualified, ?_⟩
    · rw [Lineage.resolve, qualified]
      rfl
    · rw [Lineage.findSelf, qualified]
      rfl

end LispScope
