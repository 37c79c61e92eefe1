import LispScope.Host.Standard
import LispScope.Proofs.Accord

/-!
# No analysis fails from within

Main statement: `Session.analyze_safe`. Whatever the host expands and reads, an analysis never meets a
number of no frame or binding, nor a function or loop of which nothing has been filled in where something
is asked of it; and a form in tail position always stands where a `recur` knows what it leaves. The
statement is made by watching: an analysis that looks at the place of every form before it
goes on, and does anything else at all where something is wrong, is the same as one that does not look.
-/
namespace LispScope

open AnalysisM

variable {σ : Type} {host : Host σ} {config : Config}

/-! ### Secure places -/

/-- All numbers that stand in the tables are numbers of frames and bindings. -/
structure FrameTree.Coherent (tree : FrameTree) : Prop where
  parents : ∀ id frame parent, tree.frame? id = some frame → frame.parent = some parent →
    parent < tree.frames.size
  names : ∀ id frame name binding, tree.frame? id = some frame →
    frame.binding? true name = some binding → binding < tree.bindings.size
  sources : ∀ id copy source, tree.binding? id = some copy → copy.capturedFrom = some source →
    source < tree.bindings.size
  aliases : ∀ id binding other, tree.binding? id = some binding → other ∈ binding.aliases →
    other < tree.bindings.size

/-- A place where nothing can go wrong: its frame is in range and, in tail position, in a tail scope;
all tables are in order; and whatever names a function there is the name of an enclosing one, which is
known. -/
structure Context.Secure (tree : FrameTree) (cx : Context) : Prop where
  scope : cx.InScope tree
  coherent : tree.Coherent
  selves : ∀ name target crossed, tree.Refers cx.frame name ⟨.self target, crossed⟩ →
    ∃ frame, tree.frame? target = some frame ∧ frame.kind = .function ∧
      frame.function?.isSome = true

theorem FrameTree.Valid.coherent {tree : FrameTree} (valid : tree.Valid) : tree.Coherent := by
  refine ⟨?_, ?_, ?_, ?_⟩
  · intro id frame parent held inside
    exact Nat.lt_trans (valid.sound.ordered id frame parent held inside) (frame?_lt held)
  · intro id frame name binding held answers
    have found : tree.answer? id name = some (.binding binding) := by
      have answers : (frame.locals.get? name <|> frame.captures.get? name) = some binding := answers
      simp [answer?, bound?, copy?, held, answers]
    obtain ⟨_, entry⟩ := valid.sound.entry_of_answer found
    exact entry.lt
  · intro id copy source held captured
    obtain ⟨_, outer, origin, entry, _⟩ :=
      valid.sound.sources id copy.name copy.frame source ⟨copy, held, rfl, rfl, captured⟩
    exact entry.lt
  · intro id binding other held member
    exact valid.settled.inside id other ⟨binding, held, member⟩

theorem FrameTree.Valid.secure {tree : FrameTree} {cx : Context} (valid : tree.Valid)
    (scope : cx.InScope tree) : cx.Secure tree :=
  ⟨scope, valid.coherent, fun _ _ _ refers => (valid.exists_captureSelf scope.inRange refers).1⟩

/-! ### Watching -/

open Classical in
/-- An analysis that looks at the place of every form before it analyzes the form. Where the place is
not secure it falls into a trap. -/
noncomputable def analyzeWatched (analyzer : Analyzer σ) (trap : Recursion σ) : Nat → Recursion σ
  | 0 => fun _ _ => throw .exhausted
  | depth + 1 => fun cx form state =>
    if cx.Secure state.tree then
      analyzeStep analyzer (analyzeWatched analyzer trap depth) cx form state
    else trap cx form state

/-- Analyses that are never refused for an internal failure, over a host whose reader never fails in
that way. -/
def Regime.careful (host : Host σ) (start : σ)
    (reader : ∀ world text span diagnostic after, host.Reaches start world →
      host.readFragment text span world = .error diagnostic after →
        diagnostic.kind ≠ .internalFailure) : Regime host := by
  refine .reachable host start
    (fun halt => ∀ diagnostic, halt = .refused diagnostic → diagnostic.kind ≠ .internalFailure)
    ?_ ?_ ?_ ?_
  · rintro fault span apart _ ⟨⟩ internal
    exact apart internal
  · rintro call cause _ ⟨⟩
    nofun
  · rintro diagnostic expansions halts _ ⟨⟩
    have kept : (diagnostic.noteExpansions expansions).kind = diagnostic.kind := by
      rw [Diagnostic.noteExpansions]
      split <;> rfl
    rw [kept]
    exact halts diagnostic rfl
  · rintro world text span diagnostic after reached unread _ ⟨⟩
    exact reader world text span diagnostic after reached unread

/-- Watching makes no difference. -/
theorem analyzeWatched_follows {regime : Regime host} (exhausted : regime.Halts .exhausted)
    (trap : Recursion σ) (depth : Nat) (form : Form) :
    Follows regime .strict (analyzeForm ⟨host, config⟩ depth)
      (analyzeWatched ⟨host, config⟩ trap depth) form := by
  induction depth generalizing form with
  | zero =>
    rintro tree cx boxed scope flags before before' states rfl
    exact .error states exhausted
  | succ depth ih =>
    rintro tree cx boxed scope flags before before' states rfl
    have step : Follows regime .strict (analyzeStep ⟨host, config⟩ (analyzeForm ⟨host, config⟩ depth))
        (analyzeStep ⟨host, config⟩ (analyzeWatched ⟨host, config⟩ trap depth)) form :=
      analyzeStep_follows (.refl config) fun new _ => ih new
    have outcome := step before.tree cx boxed scope flags before before' states rfl
    -- The place is the same in both runs, and secure since the tree is valid.
    cases states.eq
    have secure : Context.Secure before.tree { cx with boxed } :=
      states.valid.secure ⟨scope.inRange, scope.tail⟩
    have passed : analyzeWatched ⟨host, config⟩ trap (depth + 1) { cx with boxed } form before =
        analyzeStep ⟨host, config⟩ (analyzeWatched ⟨host, config⟩ trap depth) { cx with boxed } form
          before := if_pos secure
    rw [passed]
    exact outcome

/-! ### Cutting forms apart -/

theorem length_of_pairs? {items : List Form} {pairs : List (Form × Form)}
    (found : Form.pairs? items = some pairs) : items.length = 2 * pairs.length := by
  rw [← flatMap_of_pairs? found, List.length_flatMap]
  simp [Nat.mul_comm]

/-- What is cut off the items of special forms is there: the vector before the body of a `let*`, whose
items come in pairs; the head of a clause of a `try`; and the head, the type and the name before the
body of a `catch`. -/
structure Cuts : Prop where
  bindings : ∀ binder args span pairs, bindingPairs binder args.head? span = .ok pairs →
    ∃ items vectorSpan rest, args = .vector items vectorSpan :: rest ∧
      items.length = 2 * pairs.length
  clauses : ∀ items parts, TryParts.ofItems items = .ok parts →
    (∀ clause ∈ parts.handler, clause.1 ≠ []) ∧ ∀ clause ∈ parts.cleanup, clause ≠ []
  handlers : ∀ items span parts, CatchParts.ofItems items span = .ok parts → 3 ≤ items.length

theorem cuts : Cuts := by
  refine ⟨?_, ?_, ?_⟩
  · intro binder args span pairs found
    obtain ⟨items, vectorSpan, shaped, paired⟩ := bindingPairs_ok found
    exact ⟨items, vectorSpan, args.tail, shaped, length_of_pairs? paired⟩
  · intro items parts found
    have among := TryParts.among found
    refine ⟨fun clause held => (among.handler clause held).2.2, fun clause held => ?_⟩
    obtain ⟨_, _, _, inhabited⟩ := among.cleanup clause held
    exact inhabited
  · intro items span parts found
    obtain ⟨head, type, name, rfl⟩ := CatchParts.ofItems_ok found
    simp

/-! ### Analyses -/

/-- Whatever the host expands and reads, an analysis is not refused for an internal failure, unless the
reader fails in that way itself. To watch the analysis makes no difference: whenever a form is analyzed,
all numbers in the tables are those of frames and bindings, a name of an enclosing function leads to one
that is known, and in tail position one comes, out of `let*` and `letfn*`, to a function that is known, to
a loop whose names are counted, or to a `try` or its handler. From there a `recur` has a target, or it is
refused because it would leave a `try`, but never because nothing is around it or something has not been
filled in. What is cut off the items of special forms is there. -/
theorem Session.analyze_safe (host : Host σ) (config : Config) (session : Session σ)
    (reader : ∀ world text span diagnostic after, host.Reaches session.world world →
      host.readFragment text span world = .error diagnostic after →
        diagnostic.kind ≠ .internalFailure) (depth : Nat) (form : Form) :
    (∀ diagnostic, ((Session.analyze ⟨host, config⟩ depth form).run session).1 =
        .error (.refused diagnostic) → diagnostic.kind ≠ .internalFailure) ∧
      (∀ trap : Recursion σ,
        analyzeWatched ⟨host, config⟩ trap depth .topLevel form
            ⟨session.world, .initial, session.names, []⟩ =
          analyzeForm ⟨host, config⟩ depth .topLevel form
            ⟨session.world, .initial, session.names, []⟩) ∧
      (∀ tree cx lineage, Context.Secure tree cx → cx.position = .tail →
        tree.lineage cx.frame = some lineage →
          ∀ fault, recurTarget lineage = .error fault → fault = .recurFromTry) ∧
      Cuts := by
  have exhausted : (Regime.careful host session.world reader).Halts .exhausted := nofun
  refine ⟨fun diagnostic refused => ?_, fun trap => ?_, ?_, cuts⟩
  · have same : config.Alike .strict config := .refl config
    have follows := analyzeForm_follows same exhausted depth form
    exact (follows.analyze rfl rfl .start).halts _ refused diagnostic rfl
  · have follows : Follows _ .strict (analyzeForm ⟨host, config⟩ depth) _ form :=
      analyzeWatched_follows exhausted trap depth form
    exact (follows.topLevel .start rfl).eq.symm
  · intro tree cx lineage secure tail climbed fault failed
    rcases (secure.scope.tail tail).recurTarget climbed with ⟨target, aimed⟩ | refused
    · cases aimed.symm.trans failed
    · cases refused.symm.trans failed
      rfl

/-- Namespaces keep their reader, whatever they are asked to do. -/
theorem Namespaces.reader_of_reaches {start spaces : Namespaces}
    (reached : Namespaces.host.Reaches start spaces) : spaces.reader = start.reader :=
  holds_of_reaches (P := fun spaces => spaces.reader = start.reader) rfl
    (fun _ _ same => same) (fun _ _ same => same) reached

/-- `(loop* [x 1] (let* [y x] (try (recur y))))`. -/
def trapped : Form :=
  let symbol (name : String) : Form := .symbol (.simple name) .synthetic
  let list (items : List Form) : Form := .list items .synthetic
  list [symbol "loop*", .vector [symbol "x", .atom (.int 1) .synthetic] .synthetic,
    list [symbol "let*", .vector [symbol "y", symbol "x"] .synthetic,
      list [symbol "try", list [symbol "recur", symbol "y"]]]]

/-- The kind of the diagnostic that a form was refused with. -/
def refusal? : Except Halt Analysis → Option Kind
  | .error (.refused diagnostic) => some diagnostic.kind
  | _ => none

theorem refused_of_refusal? {result : Except Halt Analysis} {kind : Kind}
    (found : refusal? result = some kind) :
    ∃ diagnostic, result = .error (.refused diagnostic) ∧ diagnostic.kind = kind := by
  unfold refusal? at found
  split at found
  next diagnostic => exact ⟨diagnostic, rfl, Option.some.inj found⟩
  next => cases found

/-- In `trapped` the `recur` is refused because it would leave the `try`. A watch over the standard
namespaces notices nothing else. -/
theorem trapped_safe :
    (∃ diagnostic,
      ((Session.analyze ⟨Namespaces.host, .standard⟩ 6 trapped).run (.start Standard.namespaces)).1 =
        .error (.refused diagnostic) ∧
      diagnostic.kind = .invalidRecurFromTry ∧ diagnostic.kind ≠ .internalFailure) ∧
    analyzeWatched ⟨Namespaces.host, .standard⟩ (fun _ _ => throw .exhausted) 6 .topLevel trapped
        ⟨Standard.namespaces, .initial, .initial, []⟩ =
      analyzeForm ⟨Namespaces.host, .standard⟩ 6 .topLevel trapped
        ⟨Standard.namespaces, .initial, .initial, []⟩ := by
  have reader (world : Namespaces) (text : String) (span : Span) (diagnostic : Diagnostic)
      (after : Namespaces) (reached : Namespaces.host.Reaches Standard.namespaces world)
      (unread : Namespaces.host.readFragment text span world = .error diagnostic after) :
      diagnostic.kind ≠ .internalFailure := by
    have standard : world.reader = some Standard.readFragment :=
      (Namespaces.reader_of_reaches reached).trans rfl
    simp only [Namespaces.host, Namespaces.readFragment, standard, Standard.readFragment] at unread
    cases read : Source.readAll text with
    | ok forms =>
      rw [read] at unread
      cases unread
    | error error =>
      rw [read] at unread
      cases unread
      intro same
      cases same
  have computed : refusal? ((Session.analyze ⟨Namespaces.host, .standard⟩ 6 trapped).run
      (.start Standard.namespaces)).1 = some .invalidRecurFromTry := by
    decide +kernel
  obtain ⟨diagnostic, refused, kind⟩ := refused_of_refusal? computed
  obtain ⟨safe, watched, _⟩ := Session.analyze_safe Namespaces.host .standard
    (.start Standard.namespaces) reader 6 trapped
  exact ⟨⟨diagnostic, refused, kind, safe diagnostic refused⟩, watched _⟩

end LispScope
