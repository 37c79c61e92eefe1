import LispScope.Proofs.Independence
import LispScope.Proofs.Lifting

/-!
# Generated names

Main statement: `Session.analyzeAll_names`. All identifiers that a session generates, for the vars and
constants of all frames and for the functions, are different from each other, whatever the forms are and
whether or not some are refused, and every one of them is an identifier of a C-like language.

Different names may be spelled alike, so it is the number at the end that tells identifiers apart. The
numbers that were drawn between two states of the supply lie between them. Along a run this gives every
entry and every function a number of its own, and along a session every form a range of its own.
-/
namespace LispScope

/-! ### Identifiers -/

namespace Identifier

/-- A letter or an underscore, and then letters, digits and underscores, all of the ASCII range. -/
def IsValid (label : String) : Prop :=
  ∃ first rest, label.toList = first :: rest ∧ (first.isAlpha = true ∨ first = '_') ∧
    ∀ c ∈ rest, c.isAlphanum = true ∨ c = '_'

/-- All characters stand for themselves. -/
def IsPlain (text : String) : Prop := text.toList.all isPlain = true

instance (text : String) : Decidable (IsPlain text) :=
  inferInstanceAs (Decidable (text.toList.all isPlain = true))

theorem IsPlain.append {first second : String} (left : IsPlain first) (right : IsPlain second) :
    IsPlain (first ++ second) := by
  rw [IsPlain, String.toList_append, List.all_append, left, right]
  rfl

/-- Hexadecimal digits are plain, also as capitals. -/
theorem isPlain_hexDigits (n : Nat) : IsPlain ((Text.hexDigits n).map Char.toUpper) := by
  have digit (d : Nat) (small : d < 16) : isPlain d.digitChar.toUpper = true := by
    interval_cases d <;> decide
  rw [IsPlain, String.toList_map, List.all_map]
  exact Text.all_hexDigits digit n

theorem isPlain_spell (c : Char) : IsPlain (spell c) := by
  unfold spell
  split
  next plain => simpa [IsPlain] using plain
  next =>
    split
    -- What has no word of its own is written by its number.
    case h_16 =>
      have opening : IsPlain "_U" := by decide
      have closing : IsPlain "_" := by decide
      exact (opening.append (isPlain_hexDigits c.toNat)).append closing
    all_goals decide

theorem isPlain_ofName (name : String) : IsPlain (ofName name) := by
  have spelled : IsPlain (String.join (name.toList.map spell)) := by
    rw [IsPlain, String.toList_join, List.all_flatMap, List.all_map, List.all_eq_true]
    exact fun c _ => isPlain_spell c
  unfold ofName
  dsimp only
  split
  · have mark : IsPlain "_" := by decide
    exact mark.append spelled
  · exact spelled

/-- The identifier of a name does not begin with a digit; it may be empty. -/
theorem head_ofName (name : String) : (ofName name).toList.head?.any Char.isDigit = false := by
  unfold ofName
  dsimp only
  split
  · rw [String.toList_append]
    rfl
  next other => simpa using other

theorem isPlain_number (number : Nat) : IsPlain (toString number) := by
  rw [IsPlain, Nat.toString_eq_ofList_toDigits, String.toList_ofList, List.all_eq_true]
  intro c member
  have digit := Nat.isDigit_of_mem_toDigits (by decide) (by decide) member
  simp [isPlain, Char.isAlphanum, digit]

/-- What is made of a name and a number is an identifier. -/
theorem isValid_numbered (name : String) (number : Nat) :
    IsValid (ofName name ++ "_" ++ toString number) := by
  have mark : IsPlain "_" := by decide
  have plain := ((isPlain_ofName name).append mark).append (isPlain_number number)
  have head := head_ofName name
  rw [IsPlain, String.toList_append, String.toList_append, List.append_assoc] at plain
  rw [IsValid, String.toList_append, String.toList_append, List.append_assoc]
  generalize (ofName name).toList = letters at plain head ⊢
  generalize (toString number).toList = digits at plain ⊢
  cases letters with
  | nil =>
    -- Without a name the underscore comes first.
    refine ⟨'_', digits, rfl, .inr rfl, ?_⟩
    simp only [List.nil_append, List.all_append, Bool.and_eq_true] at plain
    simpa [isPlain] using plain.2
  | cons first rest =>
    simp only [List.cons_append, List.all_cons, Bool.and_eq_true] at plain
    refine ⟨first, rest ++ ("_".toList ++ digits), rfl, ?_, ?_⟩
    · have letter := plain.1
      simp only [List.head?_cons, Option.any_some] at head
      simpa [isPlain, Char.isAlphanum, head] using letter
    · intro c member
      have ok := List.all_eq_true.mp plain.2 c member
      simpa [isPlain] using ok

end Identifier

/-! ### Names that are drawn -/

namespace NameSupply

/-- The labels were handed out between two states of the supply, each under a number of its own. -/
structure Drawn (before after : NameSupply) (labels : List String) : Prop where
  later : before.issued ≤ after.issued
  numbered : ∀ label ∈ labels, ∃ name number, before.issued < number ∧ number ≤ after.issued ∧
    label = Identifier.ofName name ++ "_" ++ toString number
  distinct : labels.Nodup

namespace Drawn

variable {before between after : NameSupply} {labels more : List String}

theorem none (later : before.issued ≤ after.issued) : before.Drawn after [] :=
  ⟨later, by simp, List.nodup_nil⟩

theorem fresh {name label : String} (drawn : before.fresh name = (label, after)) :
    before.Drawn after [label] := by
  cases drawn
  refine ⟨Nat.le_succ _, ?_, List.nodup_singleton _⟩
  intro label member
  rw [List.mem_singleton.mp member]
  exact ⟨name, before.issued + 1, Nat.lt_succ_self _, Nat.le_refl _, rfl⟩

/-- What is drawn later has greater numbers. -/
theorem trans (first : before.Drawn between labels) (second : between.Drawn after more) :
    before.Drawn after (labels ++ more) := by
  refine ⟨Nat.le_trans first.later second.later, ?_, ?_⟩
  · intro label member
    rcases List.mem_append.mp member with member | member
    · obtain ⟨name, number, low, high, rfl⟩ := first.numbered label member
      exact ⟨name, number, low, Nat.le_trans high second.later, rfl⟩
    · obtain ⟨name, number, low, high, rfl⟩ := second.numbered label member
      exact ⟨name, number, Nat.lt_of_le_of_lt first.later low, high, rfl⟩
  · apply first.distinct.append second.distinct
    intro label early late
    obtain ⟨name, number, _, high, rfl⟩ := first.numbered label early
    obtain ⟨name', number', low, _, same⟩ := second.numbered _ late
    have equal := number_unique same
    omega

theorem perm (drawn : before.Drawn after labels) (same : labels.Perm more) :
    before.Drawn after more where
  later := drawn.later
  numbered label member := drawn.numbered label (same.mem_iff.mpr member)
  distinct := same.nodup_iff.mp drawn.distinct

theorem isValid (drawn : before.Drawn after labels) {label : String} (member : label ∈ labels) :
    Identifier.IsValid label := by
  obtain ⟨name, number, _, _, rfl⟩ := drawn.numbered label member
  exact Identifier.isValid_numbered name number

end Drawn

end NameSupply

/-! ### The labels of all frames -/

/-- The identifiers of vars and constants. -/
def liftLabels (lifts : Registry Symbol LiftedVar × Registry Datum LiftedConstant) : List String :=
  lifts.1.values.map LiftedVar.nativeName ++ lifts.2.values.map LiftedConstant.nativeName

/-- The identifiers of all vars and constants that a frame has lifted. -/
def Frame.labels (frame : Frame) : List String := liftLabels (frame.vars, frame.constants)

/-- Items that differ at one place, where some are added. -/
theorem flatMap_perm_append {α β : Type} [DecidableEq α] {items : List α} {f g : α → List β}
    {changed : α} {added : List β} (distinct : items.Nodup) (member : changed ∈ items)
    (others : ∀ item, item ≠ changed → g item = f item)
    (here : (g changed).Perm (f changed ++ added)) :
    (items.flatMap g).Perm (items.flatMap f ++ added) := by
  induction items with
  | nil => cases member
  | cons item items ih =>
    obtain ⟨absent, distinct⟩ := List.nodup_cons.mp distinct
    rw [List.flatMap_cons, List.flatMap_cons]
    by_cases same : item = changed
    · subst same
      have rest : items.flatMap g = items.flatMap f :=
        List.flatMap_congr fun other among => others other fun equal => absent (equal ▸ among)
      rw [rest]
      refine (here.append_right _).trans ?_
      rw [List.append_assoc, List.append_assoc]
      exact List.Perm.append_left _ List.perm_append_comm
    · have among : changed ∈ items := (List.mem_cons.mp member).resolve_left (Ne.symm same)
      rw [others item same, List.append_assoc]
      exact (ih distinct among).append_left _

namespace FrameTree

variable {before after : FrameTree}

/-- The identifiers of all vars and constants in all frames. -/
def labels (tree : FrameTree) : List String := tree.frames.toList.flatMap Frame.labels

/-- The labels frame by frame, also past the last frame, where there are none. -/
theorem labels_eq {tree : FrameTree} {count : Nat} (enough : tree.frames.size ≤ count) :
    tree.labels = (List.range count).flatMap fun id => liftLabels (tree.lifts id) := by
  obtain ⟨extra, rfl⟩ := Nat.exists_eq_add_of_le enough
  have past : ((List.range extra).map (tree.frames.size + ·)).flatMap
      (fun id => liftLabels (tree.lifts id)) = [] := by
    rw [List.flatMap_eq_nil_iff]
    intro id member
    obtain ⟨offset, _, rfl⟩ := List.mem_map.mp member
    have absent : tree.frame? (tree.frames.size + offset) = none :=
      Array.getElem?_eq_none (Nat.le_add_right ..)
    rw [lifts, absent]
    rfl
  have each (frames : List Frame) : frames.flatMap Frame.labels =
      (List.range frames.length).flatMap fun id => (frames[id]?.map Frame.labels).getD [] := by
    induction frames with
    | nil => rfl
    | cons frame frames ih =>
      rw [List.length_cons, List.range_succ_eq_map, List.flatMap_cons, List.flatMap_cons, ih,
        List.flatMap_map]
      rfl
  rw [List.range_add, List.flatMap_append, past, List.append_nil, labels, each, Array.length_toList]
  refine List.flatMap_congr fun id _ => ?_
  rw [lifts, frame?, Array.getElem?_toList]
  cases tree.frames[id]? <;> rfl

theorem SameLifts.labels (same : before.SameLifts after)
    (size : before.frames.size ≤ after.frames.size) : after.labels = before.labels := by
  rw [labels_eq (Nat.le_refl _), labels_eq size]
  exact List.flatMap_congr fun id _ => congrArg liftLabels (same id)

/-- Labels are added in one frame. -/
theorem labels_perm {home : FrameId} {added : List String} (held : home < before.frames.size)
    (size : after.frames.size = before.frames.size)
    (others : ∀ id, id ≠ home → after.lifts id = before.lifts id)
    (here : (liftLabels (after.lifts home)).Perm (liftLabels (before.lifts home) ++ added)) :
    after.labels.Perm (before.labels ++ added) := by
  rw [labels_eq (Nat.le_of_eq size), labels_eq (Nat.le_refl before.frames.size)]
  exact flatMap_perm_append List.nodup_range (List.mem_range.mpr held)
    (fun id elsewhere => congrArg liftLabels (others id elsewhere)) here

end FrameTree

/-- A registry gets a label exactly if one was drawn. -/
theorem Registered.drawn [BEq κ] {label : ν → String} {content : ν → κ} {key : κ} {value : ν}
    {supply names : NameSupply} {old new : Registry κ ν}
    (registered : Registered label content key value supply names old new) :
    ∃ labels, supply.Drawn names labels ∧
      new.values.map label = old.values.map label ++ labels := by
  cases registered with
  | found held same => exact ⟨[], .none (Nat.le_of_eq (by rw [same])), by simp⟩
  | made absent own drawn => exact ⟨_, .fresh drawn, by simp [Registry.values, Registry.push]⟩

/-! ### Labels along runs -/

/-- The identifier of a function. -/
def Node.uniqueName? : Node ε → Option String
  | function _ uniqueName _ => some uniqueName
  | _ => none

/-- The identifiers of functions, in the order of the walk. -/
def functionNames (exprs : List Expr) : List String :=
  exprs.filterMap fun expr => expr.node.uniqueName?

/-- The frames have got new labels; these and the names of the given functions were drawn. -/
def Draws (functions : List String) (before after : Store) : Prop :=
  ∃ labels, after.tree.labels.Perm (before.tree.labels ++ labels) ∧
    before.names.Drawn after.names (labels ++ functions)

namespace Draws

variable {before between after : Store} {functions others : List String}

theorem of_same (same : after.tree.labels = before.tree.labels)
    (drawn : before.names.Drawn after.names functions) : Draws functions before after :=
  ⟨[], by rw [same, List.append_nil], drawn⟩

theorem of_sameLifts (same : before.tree.SameLifts after.tree)
    (size : before.tree.frames.size ≤ after.tree.frames.size) (names : after.names = before.names) :
    Draws [] before after :=
  .of_same (same.labels size) (.none (Nat.le_of_eq (by rw [names])))

theorem trans (first : Draws functions before between) (second : Draws others between after) :
    Draws (functions ++ others) before after := by
  obtain ⟨labels, grown, drawn⟩ := first
  obtain ⟨more, grown', drawn'⟩ := second
  refine ⟨labels ++ more, ?_, ?_⟩
  · rw [← List.append_assoc]
    exact grown'.trans (grown.append_right _)
  · apply (drawn.trans drawn').perm
    -- The labels of both come first.
    rw [List.append_assoc, List.append_assoc]
    apply List.Perm.append_left
    rw [← List.append_assoc, ← List.append_assoc]
    exact List.perm_append_comm.append_right _

end Draws

section

variable {config : Config} {frame : FrameId} {before after : Store}

/-- A node draws a label for a new entry, a name if it is a function, and otherwise nothing. -/
theorem Begins.draws {node : Node Expr} (begins : Begins frame node before after) :
    Draws node.uniqueName?.toList before after := by
  have size := begins.effect.frames_size
  cases begins with
  | @var var tree names _ _ store looked lifted =>
    obtain ⟨home, lives, others, aside, registered⟩ := FrameTree.liftVar_some lifted
    obtain ⟨held, found, _⟩ := lives.owner
    obtain ⟨labels, drawn, grown⟩ := registered.drawn
    have unnamed : node.uniqueName? = none := by cases node <;> first | rfl | cases looked
    refine ⟨labels, ?_, by simpa [unnamed] using drawn⟩
    apply FrameTree.labels_perm (FrameTree.frame?_lt found) size others
    simp only [liftLabels, grown, aside, List.append_assoc]
    exact List.Perm.append_left _ List.perm_append_comm
  | constant lifting lifted =>
    obtain ⟨home, lives, others, aside, registered⟩ := FrameTree.liftConstant_some lifted
    obtain ⟨held, found, _⟩ := lives.owner
    obtain ⟨labels, drawn, grown⟩ := registered.drawn
    refine ⟨labels, ?_, by simpa [Node.uniqueName?] using drawn⟩
    apply FrameTree.labels_perm (FrameTree.frame?_lt found) size others
    simp only [liftLabels, grown, aside, List.append_assoc]
    exact List.Perm.refl _
  | literal plain => exact .of_sameLifts (.of_frames rfl) (Nat.le_refl _) rfl
  | localRef refers captured noted =>
    exact .of_sameLifts (FrameTree.use_captures captured noted).sameLifts (Nat.le_of_eq size.symm) rfl
  | function plain drawn => exact .of_same rfl (.fresh drawn)
  | recur path aimed => exact .of_sameLifts (.of_frames rfl) (Nat.le_refl _) rfl
  | selfRef refers taken =>
    exact .of_sameLifts (FrameTree.captureSelf_captures taken).sameLifts (Nat.le_of_eq size.symm) rfl
  | selfCall refers taken marked =>
    exact .of_sameLifts ((FrameTree.captureSelf_captures taken).sameLifts.trans
      (FrameTree.updateFrame_sameLifts marked fun _ => ⟨rfl, rfl⟩)) (Nat.le_of_eq size.symm) rfl
  | idle idle =>
    have unnamed : node.uniqueName? = none := by cases node <;> first | rfl | cases idle
    rw [unnamed]
    exact .of_sameLifts (.of_frames rfl) (Nat.le_refl _) rfl

/-- A run draws the names of the functions that it reaches, and a label for every new entry. -/
theorem Enacts.draws {steps : List Step} (run : Enacts config frame steps before after) :
    Draws (functionNames (reached steps)) before after := by
  induction run with
  | done =>
    rw [reached_nil]
    exact .of_sameLifts (.of_frames rfl) (Nat.le_refl _) rfl
  | @bind _ _ _ tree _ before after binds _ ih =>
    obtain ⟨_, _, _, _, bound⟩ := binds.bound
    have step : Draws [] before { before with tree } :=
      .of_sameLifts (FrameTree.bind_sameLifts bound) binds.grows.1.size rfl
    rw [reached_bind]
    exact step.trans ih
  | @count _ _ tree _ before after counts _ ih =>
    have step : Draws [] before { before with tree } :=
      .of_sameLifts (FrameTree.counts_sameLifts counts) counts.grows.1.size rfl
    rw [reached_count]
    exact step.trans ih
  | @block _ _ tree _ _ _ _ before between after opened recorded _ _ inside rest =>
    have step : Draws [] before { before with tree } :=
      .of_sameLifts (FrameTree.enter_sameLifts opened) (FrameTree.enter_grows opened).1.size rfl
    rw [reached_block, functionNames, List.filterMap_append]
    exact (step.trans inside).trans rest
  | @visit _ _ _ _ before begun followed ended after _ begins _ ends _ follows rest =>
    -- The node itself, then its script, then what follows.
    have last : Draws [] followed ended :=
      .of_sameLifts ends.sameLifts.1 (Nat.le_of_eq ends.frames_size.symm) ends.sameLifts.2
    have all := ((begins.draws.trans follows).trans last).trans rest
    rw [reached_visit, functionNames, List.filterMap_cons, List.filterMap_append]
    rw [List.append_nil, List.append_assoc] at all
    cases named : Node.uniqueName? _ <;> simpa [named, functionNames] using all

end

/-! ### Sessions -/

/-- All identifiers in a result: those of the vars and constants of its frames, and those of its
functions. -/
def Analysis.labels (analysis : Analysis) : List String :=
  analysis.tree.labels ++ functionNames analysis.expr.walk

namespace Session

variable {σ : Type} (analyzer : Analyzer σ) (depth : Nat) (form : Form) (forms : List Form)
  (session : Session σ)

/-- Numbers are never taken back, not even by a form that is refused. -/
theorem analyze_later :
    session.names.issued ≤ ((analyze analyzer depth form).run session).2.names.issued := by
  -- The form on its own draws as many names.
  have same : analyzer.config.Alike ⟨session.names.issued, false⟩ analyzer.config := .refl _
  have exhausted : (Regime.any analyzer.host session.world).Halts .exhausted := trivial
  have world : (Session.start session.world).world = session.world := rfl
  have moved : (Session.start session.world).names.Alike ⟨session.names.issued, false⟩ session.names :=
    (Nat.zero_add _).symm
  have answer := (analyzeForm_follows same exhausted depth form).analyze world moved .start
  have drawn : ((analyze analyzer depth form).run session).2.names.issued =
      ((analyze analyzer depth form).run (.start session.world)).2.names.issued +
        session.names.issued := answer.sessions.names
  omega

/-- The identifiers of a result were drawn by its own form. -/
theorem analyze_drawn {analysis : Analysis} {after : Session σ}
    (run : (analyze analyzer depth form).run session = (.ok analysis, after)) :
    session.names.Drawn after.names analysis.labels := by
  change analyze analyzer depth form session = _ at run
  unfold analyze at run
  cases result : analyzeForm analyzer depth .topLevel form
      ⟨session.world, .initial, session.names, []⟩ with
  | error halt state =>
    rw [result] at run
    cases run
  | ok expr state =>
    rw [result] at run
    cases run
    obtain ⟨labels, grown, drawn⟩ := (analyzeForm_enacts analyzer depth result).draws
    have walked : reached [.visit Context.topLevel.place expr] = expr.walk := by
      simp [reached, visited]
    rw [walked] at drawn
    exact drawn.perm (grown.symm.append_right _)

/-- The identifiers of all results of a session were drawn one after the other. -/
theorem analyzeAll_drawn :
    session.names.Drawn ((analyzeAll analyzer depth forms).run session).2.names
      ((((analyzeAll analyzer depth forms).run session).1.filterMap Except.toOption).flatMap
        Analysis.labels) := by
  induction forms generalizing session with
  | nil => exact .none (Nat.le_refl _)
  | cons form forms ih =>
    have later := analyze_later analyzer depth form session
    rw [analyzeAll_cons]
    dsimp only
    rcases run : (analyze analyzer depth form).run session with ⟨result, between⟩
    rw [run] at later
    have rest := ih between
    cases result with
    | error halt => exact NameSupply.Drawn.trans (.none later) rest
    | ok analysis => exact (analyze_drawn analyzer depth form session run).trans rest

/-- Whatever forms a session analyzes, and whichever of them it refuses, the identifiers of all vars and
constants in all frames and of all functions of its results are different from each other, and each one is
made of letters, digits and underscores and does not begin with a digit. -/
theorem analyzeAll_names :
    let results := ((analyzeAll analyzer depth forms).run session).1
    let labels := (results.filterMap Except.toOption).flatMap Analysis.labels
    labels.Nodup ∧ ∀ label ∈ labels, Identifier.IsValid label := by
  intro results labels
  have drawn := analyzeAll_drawn analyzer depth forms session
  exact ⟨drawn.distinct, fun label member => drawn.isValid member⟩

end Session

end LispScope
