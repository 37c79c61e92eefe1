import LispScope.Host.Namespaces
import LispScope.Proofs.Enactment
import LispScope.Proofs.Occurrence

/-!
# Positions

Where the value of a node goes and whether it is needed boxed can be read off the nodes around it.
`Node.contexts` is the table that hands both down, from a boxed operand at the top. The analysis
hands them down on its own, form by form; here the two are shown to agree on every node of a result
(`Session.analyze_positions`).

| node | place of its parts |
| --- | --- |
| body of a function | tail, boxed |
| body of a `loop*` | tail, boxed as the loop |
| body of a `let*` or `letfn*`, last of a sequence, branch, body of `try` or `catch` | as the node |
| other parts of a sequence, `finally` | statement, boxed |
| initial value | value, unboxed |
| argument of a call | value, unboxed if the call is fast |
| argument of a `recur` | value, unboxed if it leads to a loop |
| all else | value, boxed |
-/
namespace LispScope

def RecurTarget.isFunction : RecurTarget → Bool
  | function _ => true
  | loop _ => false

/-- The places of the children of a node that stands at a place. -/
def Node.contexts (place : Place) : Node Expr → List (Place × Expr)
  | function _ _ arities => arities.map fun arity => (⟨.tail, true⟩, arity.body)
  | call head args fast => (⟨.value, true⟩, head) :: args.map (⟨.value, !fast⟩, ·)
  | recur args target => args.map (⟨.value, target.isFunction⟩, ·)
  | lets isLoop pairs body _ =>
    pairs.map (fun pair => (⟨.value, false⟩, pair.2)) ++
      [(⟨if isLoop then .tail else place.position, place.boxed⟩, body)]
  | letfns pairs body _ => pairs.map (fun pair => (⟨.value, true⟩, pair.2)) ++ [(place, body)]
  | sequence items =>
    items.dropLast.map (⟨.statement, true⟩, ·) ++ items.getLast?.toList.map (place, ·)
  | branch condition yes no =>
    (⟨.value, true⟩, condition) :: (place, yes) :: no.toList.map (place, ·)
  | guarded body _ handler cleanup =>
    (place, body) :: handler.toList.map (fun held => (place, held.body)) ++
      cleanup.toList.map (⟨.statement, true⟩, ·)
  | dispatch value _ _ branches fallback =>
    (⟨.value, true⟩, value) :: branches.map (fun entry => (place, entry.2)) ++ [(place, fallback)]
  | node => node.children.map (⟨.value, true⟩, ·)

theorem Node.contexts_complete : Pass.Complete Node.contexts := by
  intro place node
  cases node with
  | sequence items =>
    rcases List.eq_nil_or_concat items with rfl | ⟨items, last, rfl⟩
    · rfl
    · simp [contexts, children, Function.comp_def]
  | guarded body frame handler cleanup =>
    cases handler <;> cases cleanup <;> simp [contexts, children]
  | _ => simp [contexts, children, Function.comp_def]

/-- The nodes of an expression that stands on its own, with their places, in the order of the
walk. -/
def Expr.placed (expr : Expr) : List (Place × Expr) :=
  Pass.nodes Node.contexts Node.contexts_complete ⟨.value, true⟩ expr

/-- Places along scripts, where every visit names its own. -/
def placeTraversal : Traversal Unit Place where
  bind _ _ := ()
  count _ _ _ := ()
  enter _ _ _ := ()
  view _ place := place
  pass := Node.contexts

namespace placeTraversal

@[simp] theorem view_eq (context : Unit) (place : Place) :
    placeTraversal.view context place = place := rfl

@[simp] theorem pass_eq : placeTraversal.pass = Node.contexts := rfl

theorem views_pairs (context : Unit) (isLoop : Bool) (pairs : List (BindingId × Expr)) :
    placeTraversal.views context (pairScript isLoop pairs) =
      pairs.map fun pair => (⟨.value, false⟩, pair.2) := by
  induction pairs with
  | nil => simp [pairScript]
  | cons pair pairs ih =>
    rw [Traversal.views_pairs_cons, List.map_cons]
    exact congrArg _ ih

theorem views_arities (context : Unit) (name : Option Symbol) (uniqueName : String)
    (arities : List (Arity Expr)) :
    placeTraversal.views context (arities.map (Arity.block name uniqueName)) =
      arities.map fun arity => (⟨.tail, true⟩, arity.body) := by
  induction arities with
  | nil => simp
  | cons arity arities ih =>
    simp only [List.map_cons, Arity.block, Traversal.views_block, Traversal.views_append,
      Traversal.views_map_bind, Traversal.views_visit, Traversal.views_nil, List.nil_append,
      List.cons_append]
    exact congrArg _ ih

/-- The scripts of the analysis follow the table. -/
theorem lawful : placeTraversal.Lawful := by
  intro context place node
  cases node with
  | function name uniqueName arities => exact views_arities context name uniqueName arities
  | sequence items => simp [Node.script, Traversal.views_sequence, Node.contexts, Place.statement]
  | recur args target =>
    cases target <;> simp [Node.script, Node.contexts, RecurTarget.isFunction, Place.operand,
      Place.operandAs]
  | lets isLoop pairs body frame =>
    simp [Node.script, Traversal.views_append, views_pairs, Node.contexts]
  | guarded body frame handler cleanup =>
    cases handler <;> cases cleanup <;>
      simp [Node.script, Handler.block, Node.contexts, Place.statement]
  | _ =>
    simp [Node.script, Traversal.views_append, Node.contexts, Node.children, Place.operand,
      Place.operandAs]

theorem carries (config : Config) (final : FrameTree) :
    placeTraversal.Carries config final (fun _ _ => True) (fun _ _ _ => True) where
  lawful := lawful
  handsDown _ _ := trivial
  bind _ _ _ := trivial
  count _ _ := trivial
  enter _ _ _ := trivial
  leave _ _ _ _ := trivial
  begins _ _ _ _ := trivial
  ends _ _ := trivial

end placeTraversal

theorem isUnboxedOperator_iff {config : Config} {head : Expr} :
    isUnboxedOperator config head = true ↔
      ∃ var, head.node = .varValue var ∧ var.name ∈ config.unboxedOps := by
  cases node : head.node <;>
    simp [isUnboxedOperator, node, Config.isUnboxedOp]

/-- Every node of a result stands at the place that the table gives to it: its position is recorded,
a local name is taken boxed or not accordingly, and a call is fast exactly if its head is the value of
an operator that takes its operands unboxed. -/
theorem Session.analyze_positions {σ : Type} {analyzer : Analyzer σ} {depth : Nat} {form : Form}
    {session : Session σ} {analysis : Analysis}
    (analyzed : ((Session.analyze analyzer depth form).run session).1 = .ok analysis) :
    analysis.expr.placed.map Prod.snd = analysis.expr.walk ∧
    ∀ place found, (place, found) ∈ analysis.expr.placed →
      found.position = place.position ∧
      (∀ name binding boxed, found.node = .localRef name binding boxed → boxed = place.boxed) ∧
      ∀ head args fast, found.node = .call head args fast →
        (fast = true ↔
          ∃ var, head.node = .varValue var ∧ var.name ∈ analyzer.config.unboxedOps) := by
  refine ⟨Pass.map_snd_nodes _ _ _, ?_⟩
  intro place found member
  obtain ⟨names, run⟩ := Session.analyze_enacts analyzed
  have observed : Observed placeTraversal analyzer.config analysis.tree (fun _ _ => True)
      (fun _ _ _ => True) () FrameTree.rootId [.visit .operand analysis.expr]
      ⟨.initial, session.names⟩ ⟨analysis.tree, names⟩ :=
    (Observed.of_enacts (placeTraversal.carries _ _) run (.refl _) (fun _ _ => trivial) trivial).1
  have root : (⟨.value, true⟩, analysis.expr) ∈
      placeTraversal.views () [.visit .operand analysis.expr] := by
    simp [Place.operand, Place.operandAs]
  -- At the moment at which a node was visited, it was made to fit the place that it sees.
  obtain ⟨_, _, _, _, _, rfl, ⟨position, fits⟩, _⟩ :=
    observed.moment placeTraversal.lawful root ((Below.iff_mem_nodes _).mpr member)
  refine ⟨position, ?_, ?_⟩
  · intro name binding boxed reference
    rw [reference] at fits
    exact fits
  · intro head args fast call
    rw [call] at fits
    rw [← isUnboxedOperator_iff, ← fits]

/-- `(loop* [x nil y x] (recur x y))`. -/
def spinning : Form :=
  let symbol (name : String) : Form := .symbol (.simple name) .synthetic
  .list [symbol "loop*",
    .vector [symbol "x", .atom .nil .synthetic, symbol "y", symbol "x"] .synthetic,
    .list [symbol "recur", symbol "x", symbol "y"] .synthetic] .synthetic

/-- The last node of `spinning` is an argument that goes back to the loop, so it is taken unboxed. -/
theorem spinning_positions : ∃ analysis,
    ((Session.analyze ⟨Namespaces.host, .standard⟩ 4 spinning).run (.start (.inside "user"))).1 =
      .ok analysis ∧
    ∃ place found binding boxed, (place, found) ∈ analysis.expr.placed ∧
      found.node = .localRef (.simple "y") binding boxed ∧ place = ⟨.value, false⟩ ∧
      found.position = .value ∧ boxed = false := by
  have computed : (((Session.analyze ⟨Namespaces.host, .standard⟩ 4 spinning).run
      (.start (.inside "user"))).1.toOption.bind fun analysis =>
        analysis.expr.placed.getLast?.bind fun last =>
          last.2.node.localRef?.map fun reference =>
            (reference.1, last.1.position, last.1.boxed)) =
      some (.simple "y", .value, false) := by
    cbv
  simp only [Option.bind_eq_some_iff, Option.map_eq_some_iff, Prod.mk.injEq] at computed
  obtain ⟨analysis, result, ⟨place, found⟩, last, ⟨name, binding, boxed⟩, reference, rfl, at_, kept⟩ :=
    computed
  have analyzed := ok_of_toOption result
  have member := List.mem_of_getLast? last
  have node : found.node = .localRef (.simple "y") binding boxed := by
    cases node : found.node <;> simp_all [Node.localRef?]
  obtain ⟨position, agrees, _⟩ := (Session.analyze_positions analyzed).2 place found member
  refine ⟨analysis, analyzed, place, found, binding, boxed, member, node, ?_, ?_, ?_⟩
  · rw [← at_, ← kept]
  · exact position.trans at_
  · exact (agrees _ _ _ node).trans kept

end LispScope
