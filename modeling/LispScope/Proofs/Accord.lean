import LispScope.Proofs.Lockstep
import LispScope.Proofs.Shape
import LispScope.Proofs.TailJump

/-!
# Forms whose analyses go in step

Main statement: `analyzeStep_follows`. Two analyses of a form go in step wherever the form stands, if
they do so for the forms that it *brings* with it: those inside it, those read from its native code,
and what it expands to. There is one lemma for each kind of form, which follows the analysis of that
kind and uses the rules for single steps.
-/
namespace LispScope

open AnalysisM

variable {σ : Type} {host : Host σ} {regime : Regime host} {allow : Tolerance}
  {config config' : Config} {self self' : Recursion σ} {tree after : FrameTree} {cx : Context}
  {boxed : Bool} {span : Span}

/-- Expressions that are alike, the first of which evaluates to locals of the tree only. -/
structure Matches (allow : Tolerance) (tree : FrameTree) (first second : Expr) : Prop where
  alike : Expr.Alike allow first second
  covers : tree.Covers first

/-- Options under which the same is refused. The second ones may leave more operands unboxed, if
that is tolerated. -/
structure Config.Alike (allow : Tolerance) (first second : Config) : Prop where
  maxParams : second.maxParams = first.maxParams
  operators : ∀ name, allow.Flag (!first.isUnboxedOp name) (!second.isUnboxedOp name)

/-- Two ways of analyzing a form go in step wherever it stands. -/
def Follows (regime : Regime host) (allow : Tolerance) (self self' : Recursion σ) (form : Form) :
    Prop :=
  ∀ (tree : FrameTree) (cx : Context) (boxed : Bool), cx.InScope tree → allow.Flag cx.boxed boxed →
    Lockstep regime allow tree (Matches allow) (self cx form) (self' { cx with boxed } form)

namespace Matches

variable {first second : Expr} {node node' : Node Expr}

theorem grows (grows : tree.Grows after) (held : Matches allow tree first second) :
    Matches allow after first second :=
  ⟨held.alike, fun binding member => grows.bindings_lt (held.covers binding member)⟩

/-- Expressions match if their nodes do and what they refer to themselves is a local of the tree. -/
theorem of_node (nodes : Node.Alike allow (Matches allow tree) node node')
    (known : ∀ ref ∈ node.localRef?, ref.2.1 < tree.bindings.size) :
    Matches allow tree (cx.expr node span) ((show Context from { cx with boxed }).expr node' span) := by
  refine ⟨.mk (nodes.imp fun _ _ _ held => held.alike) cx.position span, fun binding member => ?_⟩
  rw [Expr.resultLocals_eq] at member
  rcases List.mem_append.mp member with here | below
  · obtain ⟨ref, held, rfl⟩ := Option.map_eq_some_iff.mp (Option.mem_toList.mp here)
    exact known ref held
  · obtain ⟨child, inside, found⟩ := List.mem_flatMap.mp below
    have each := (List.forall₂_and_left _ _).mp (nodes.results.imp fun _ _ held => ⟨held.covers, held⟩)
    exact each.1 child inside binding found

end Matches

/-! ### Constants and names -/

mutual

/-- What interning a keyword keeps of the host is kept when all keywords of a form are interned. -/
theorem Form.constant_keeps {P : σ → Prop} {intern : Symbol → StateM σ Symbol}
    (keeps : ∀ name world, P world → P (intern name world).2) (form : Form) {world : σ}
    (held : P world) : P (form.constant intern world).2 := by
  cases form with
  | atom value span =>
    cases value with
    | keyword name => exact keeps name world held
    | _ => exact held
  | seq shape items span => exact constants_keeps keeps items held
  | map entries span => exact entryConstants_keeps keeps entries held
termination_by structural form

theorem Form.constants_keeps {P : σ → Prop} {intern : Symbol → StateM σ Symbol}
    (keeps : ∀ name world, P world → P (intern name world).2) (items : List Form) {world : σ}
    (held : P world) : P (Form.constants intern items world).2 := by
  cases items with
  | nil => exact held
  | cons item items => exact constants_keeps keeps items (item.constant_keeps keeps held)
termination_by structural items

theorem Form.entryConstants_keeps {P : σ → Prop} {intern : Symbol → StateM σ Symbol}
    (keeps : ∀ name world, P world → P (intern name world).2) (entries : List (Form × Form))
    {world : σ} (held : P world) : P (Form.entryConstants intern entries world).2 := by
  cases entries with
  | nil => exact held
  | cons entry entries =>
    have keyed := entry.1.constant_keeps keeps held
    exact entryConstants_keeps keeps entries (entry.2.constant_keeps keeps keyed)
termination_by structural entries

end

theorem analyzeConstant_follows (scope : cx.InScope tree) (value : Datum) :
    Lockstep regime allow tree (Matches allow) (analyzeConstant cx value span)
      (analyzeConstant { cx with boxed } value span) := by
  unfold analyzeConstant
  split
  · refine .bind (.liftConstant scope boxed value) fun after constant constant' _ lifted => .pure ?_
    exact .of_node (.literal value (.some lifted)) nofun
  · exact .pure (.of_node (.literal value .none) nofun)

theorem analyzeQuoted_follows (scope : cx.InScope tree) (form : Form) :
    Lockstep regime allow tree (Matches allow) (analyzeQuoted ⟨host, config⟩ cx form span)
      (analyzeQuoted ⟨host, config'⟩ { cx with boxed } form span) := by
  refine .bind (.runHost fun world => form.constant_keeps regime.internKeyword) ?_
  rintro after value _ grows rfl
  exact analyzeConstant_follows (scope.grows grows) value

theorem analyzeSymbol_follows (scope : cx.InScope tree) (flags : allow.Flag cx.boxed boxed)
    (symbol : Symbol) :
    Lockstep regime allow tree (Matches allow) (analyzeSymbol ⟨host, config⟩ cx symbol span)
      (analyzeSymbol ⟨host, config'⟩ { cx with boxed } symbol span) := by
  refine .bind (.resolve scope boxed symbol) ?_
  rintro after found _ grows ⟨rfl, refers⟩
  have scope := scope.grows grows
  match found with
  | some ⟨.binding source, crossed⟩ =>
    refine .bind (.useBinding scope flags (refers _ rfl)) ?_
    rintro used binding _ _ ⟨rfl, known⟩
    refine .pure (.of_node (.localRef symbol binding flags) ?_)
    rintro _ ⟨⟩
    exact known
  | some ⟨.self target, crossed⟩ =>
    refine .bind (.useSelf scope boxed (refers _ rfl)) fun _ _ _ _ _ => .pure ?_
    exact .of_node (.selfRef symbol target) nofun
  | none =>
    refine .bind .askHost ?_
    rintro asked var _ further rfl
    cases var with
    | some var =>
      refine .bind (.liftVar (scope.grows further) boxed var.name) fun _ _ _ _ lifted => .pure ?_
      exact .of_node (.varValue lifted) nofun
    | none =>
      dsimp only
      split
      · exact .refuse nofun
      · exact .refuse nofun

/-! ### Bodies and operands -/

theorem analyzeSequence_follows {forms : List Form}
    (parts : Throughout (Follows regime allow self self') forms) (scope : cx.InScope tree)
    (flags : allow.Flag cx.boxed boxed) :
    Lockstep regime allow tree (fun after => List.Forall₂ (Matches allow after))
      (analyzeSequence self cx forms) (analyzeSequence self' { cx with boxed } forms) := by
  induction forms generalizing tree with
  | nil => exact .pure .nil
  | cons form forms ih =>
    cases forms with
    | nil =>
      refine .bind (parts.head tree cx boxed scope flags) fun after last last' _ held => .pure ?_
      exact .cons held .nil
    -- Only the last form stands where the sequence stands.
    | cons next forms =>
      refine .bind (parts.head tree cx.statement true scope.statement (.refl _)) ?_
      intro between first first' grows held
      refine .bind (ih parts.tail (scope.grows grows)) ?_
      intro after rest rest' grows others
      exact .pure (.cons (held.grows grows) others)

theorem analyzeBody_follows {body : List Form}
    (parts : Throughout (Follows regime allow self self') body) (scope : cx.InScope tree)
    (flags : allow.Flag cx.boxed boxed) :
    Lockstep regime allow tree (Matches allow) (analyzeBody self cx body span)
      (analyzeBody self' { cx with boxed } body span) := by
  unfold analyzeBody
  split
  · exact analyzeConstant_follows scope _
  · exact parts.head tree cx boxed scope flags
  · refine .bind (analyzeSequence_follows parts scope flags) fun _ _ _ _ items => .pure ?_
    exact .of_node (.sequence items) nofun

theorem analyzeOperands_follows {forms : List Form}
    (parts : Throughout (Follows regime allow self self') forms) (scope : cx.InScope tree)
    (flags : allow.Flag cx.boxed boxed) :
    Lockstep regime allow tree (fun after => List.Forall₂ (Matches allow after))
      (analyzeOperands self cx forms) (analyzeOperands self' { cx with boxed } forms) := by
  induction forms generalizing tree with
  | nil => exact .pure .nil
  | cons form forms ih =>
    refine .bind (parts.head tree cx boxed scope flags) fun between first first' grows held => ?_
    refine .bind (ih parts.tail (scope.grows grows)) fun after rest rest' grows others => ?_
    exact .pure (.cons (held.grows grows) others)

theorem analyzeEntries_follows {entries : List (Form × Form)}
    (parts : ∀ entry ∈ entries, Follows regime allow self self' entry.1 ∧
      Follows regime allow self self' entry.2) (scope : cx.InScope tree) :
    Lockstep regime allow tree (fun after => List.Forall₂ (Paired (Matches allow after)))
      (analyzeEntries self cx entries) (analyzeEntries self' { cx with boxed } entries) := by
  induction entries generalizing tree with
  | nil => exact .pure .nil
  | cons entry entries ih =>
    obtain ⟨⟨keyed, valued⟩, parts⟩ := List.forall_mem_cons.mp parts
    refine .bind (keyed tree cx.operand true scope.operand (.refl _)) fun first key key' grows keys => ?_
    have scope := scope.grows grows
    refine .bind (valued first cx.operand true scope.operand (.refl _)) ?_
    intro second value value' further values
    refine .bind (ih parts (scope.grows further)) fun after rest rest' grows others => ?_
    exact .pure (.cons (.mk (keys.grows (further.trans grows)) (values.grows grows)) others)

theorem mapM_follows {form : Option Form}
    (parts : ∀ item ∈ form, Follows regime allow self self' item) (scope : cx.InScope tree)
    (flags : allow.Flag cx.boxed boxed) :
    Lockstep regime allow tree (fun after => Option.Rel (Matches allow after))
      (form.mapM (self cx)) (form.mapM (self' { cx with boxed })) := by
  cases form with
  | none => exact .pure .none
  | some form =>
    refine .bind (parts form rfl tree cx boxed scope flags) fun after value value' _ held => ?_
    exact .pure (.some held)

/-! ### Definitions and applications -/

/-- Whatever is found out about the items of a form is halted for by its own fault. -/
theorem Lockstep.settled {answer : Except Diagnostic α} (blames : Blames (fun _ => True) answer) :
    Lockstep regime allow tree (fun _ value value' => value = value' ∧ answer = .ok value)
      (AnalysisM.settle answer) (AnalysisM.settle answer) := by
  refine .settle fun diagnostic refused => ?_
  obtain ⟨fault, span, proper, _, rfl⟩ := blames diagnostic refused
  exact regime.fault fault span (Fault.kind_ne_internalFailure proper)

theorem analyzeDef_follows {args : List Form}
    (parts : Throughout (Follows regime allow self self') args) (scope : cx.InScope tree) :
    Lockstep regime allow tree (Matches allow) (analyzeDef ⟨host, config⟩ self cx args span)
      (analyzeDef ⟨host, config'⟩ self' { cx with boxed } args span) := by
  refine .bind .askHost ?_
  rintro asked current _ first rfl
  refine .bind (.settled (DefParts.blames trivial .anywhere)) ?_
  rintro settled shape _ second ⟨rfl, found⟩
  refine .bind (.runHost (regime.internVar _)) ?_
  rintro interned var _ third rfl
  have scope := scope.grows (first.trans (second.trans third))
  refine .bind (.liftVar scope boxed var.name) fun lifting lifted lifted' grows vars => ?_
  have valued := fun form member => parts.here (DefParts.value_mem found form member)
  refine .bind (mapM_follows valued (scope.grows grows).operand (.refl _)) ?_
  intro after value value' _ values
  exact .pure (.of_node (.define vars values) nofun)

/-- An operator that takes its operands unboxed does so for both, or for the second analysis only. -/
theorem isUnboxedOperator_alike {head head' : Expr} (configs : config.Alike allow config')
    (heads : Expr.Alike allow head head') :
    allow.Flag (!isUnboxedOperator config head) (!isUnboxedOperator config' head') := by
  cases heads with
  | mk nodes position span =>
    cases nodes with
    | varValue vars =>
      cases vars with
      | mk name names => exact configs.operators name
    | _ => exact .refl _

theorem analyzeCall_follows {head : Form} {args : List Form} (configs : config.Alike allow config')
    (parts : Throughout (Follows regime allow self self') (head :: args)) (scope : cx.InScope tree) :
    Lockstep regime allow tree (Matches allow) (analyzeCall ⟨host, config⟩ self cx head args span)
      (analyzeCall ⟨host, config'⟩ self' { cx with boxed } head args span) := by
  refine .bind (parts.head tree cx.operand true scope.operand (.refl _)) ?_
  intro between operator operator' grows heads
  -- It is here that the operands may come to be boxed in one run and unboxed in the other.
  have flags := isUnboxedOperator_alike configs heads.alike
  have inner := (scope.grows grows).operandAs (!isUnboxedOperator config operator)
  refine .bind (analyzeOperands_follows parts.tail inner flags) fun after items items' grows held => ?_
  exact .pure (.of_node (.call (heads.grows grows) held (by simpa using flags.not)) nofun)

theorem analyzeSelfCall_follows {name : Symbol} {target : FrameId} {crossed : List FrameId}
    {args : List Form} (parts : Throughout (Follows regime allow self self') args)
    (scope : cx.InScope tree) (refers : tree.Refers cx.frame name ⟨.self target, crossed⟩) :
    Lockstep regime allow tree (Matches allow) (analyzeSelfCall self cx ⟨target, crossed⟩ args span)
      (analyzeSelfCall self' { cx with boxed } ⟨target, crossed⟩ args span) := by
  refine .bind (.useSelf scope boxed refers) ?_
  rintro used _ _ first ⟨_, frame, held, known⟩
  refine .bind (.noteSelfCall held known) ?_
  intro marked _ _ second _
  have scope := scope.grows (first.trans second)
  refine .bind (analyzeOperands_follows parts scope.operand (.refl _)) fun _ _ _ _ items => .pure ?_
  exact .of_node (.selfCall target items crossed) nofun

/-! ### Local names -/

theorem analyzePairs_follows {isLoop : Bool} {pairs : List (Form × Form)}
    (parts : ∀ pair ∈ pairs, Follows regime allow self self' pair.2)
    (inRange : cx.frame < tree.frames.size) :
    Lockstep regime allow tree (fun after bound bound' =>
        List.Forall₂ (Keyed (Matches allow after)) bound bound')
      (analyzePairs self cx isLoop pairs) (analyzePairs self' { cx with boxed } isLoop pairs) := by
  induction pairs generalizing tree with
  | nil => exact .pure .nil
  | cons pair pairs ih =>
    obtain ⟨nameForm, form⟩ := pair
    obtain ⟨initial, parts⟩ := List.forall_mem_cons.mp parts
    refine .bind (.settled (bindingName_blames trivial)) ?_
    rintro settled name _ first ⟨rfl, _⟩
    have inRange := Nat.lt_of_lt_of_le inRange first.size
    refine .bind (initial settled (cx.operandAs false) false ⟨inRange, nofun⟩ (.refl _)) ?_
    intro valued value value' second held
    have inRange := Nat.lt_of_lt_of_le inRange second.size
    refine .bind (.readTree (fun _ => FrameTree.exists_isUnboxable held.covers)
      fun _ alike => alike.isUnboxable held.alike) ?_
    rintro valued unboxable unboxable' third ⟨rfl, _, flags⟩
    -- The names of a loop get other values later, so what they are given first is not kept.
    have initials : Option.Rel (Expr.Alike allow) (if isLoop then none else some value)
        (if isLoop then none else some value') := by
      cases isLoop
      · exact .some held.alike
      · exact .none
    have covers : ∀ initial ∈ if isLoop then none else some value, valued.Covers initial := by
      cases isLoop
      · rintro _ ⟨⟩
        exact held.covers
      · nofun
    refine .bind (.bindLocal inRange initials covers flags.not) ?_
    rintro bound binding _ fourth rfl
    refine .bind (ih parts (Nat.lt_of_lt_of_le inRange fourth.size)) ?_
    intro after rest rest' fifth others
    exact .pure (.cons (.mk binding (held.grows (fourth.trans fifth))) others)

/-- A place in the body of a loop whose names are counted. -/
theorem Context.InScope.loop {opened between : FrameTree} {inner : FrameId} {arity : Nat}
    (entered : tree.enter .loop cx.frame = (inner, opened)) (grows : opened.Grows between)
    (counted : between.updateFrame inner (Frame.fillLoop arity) = some after) :
    ((cx.inFrame inner).inPosition .tail).InScope after := by
  obtain ⟨_, _, _, held, _⟩ := FrameTree.enter_some entered
  obtain ⟨grown, held, same⟩ := grows.frames _ _ held
  obtain ⟨_, found, _, _, changed, _⟩ := FrameTree.updateFrame_some counted
  cases held.symm.trans found
  exact ⟨FrameTree.frame?_lt changed, fun _ => .loop changed same.kind rfl⟩

theorem analyzeLet_follows {isLoop : Bool} {args : List Form}
    (parts : Throughout (Follows regime allow self self') args) (scope : cx.InScope tree)
    (flags : allow.Flag cx.boxed boxed) :
    Lockstep regime allow tree (Matches allow) (analyzeLet self isLoop cx args span)
      (analyzeLet self' isLoop { cx with boxed } args span) := by
  refine .bind (.settled (bindingPairs_blames trivial .anywhere)) ?_
  rintro settled pairs _ first ⟨rfl, found⟩
  have scope := scope.grows first
  have initials := fun pair member => (parts.pairs found pair member).2
  -- Only the position of the body depends on whether the frame is that of a loop.
  have body (between : FrameTree) (position : Position) (frame : FrameId)
      (bound bound' : List (BindingId × Expr))
      (values : List.Forall₂ (Keyed (Matches allow between)) bound bound')
      (inner : ((cx.inFrame frame).inPosition position).InScope between) :
      Lockstep regime allow between (Matches allow)
        (do
          let body ← analyzeBody self ((cx.inFrame frame).inPosition position) args.tail span
          return cx.expr (.lets isLoop bound body frame) span)
        (do
          let body ← analyzeBody self' { (cx.inFrame frame).inPosition position with boxed }
            args.tail span
          return (Context.expr { cx with boxed } (.lets isLoop bound' body frame) span)) := by
    refine .bind (analyzeBody_follows parts.tail inner flags) fun after body body' grows bodies => ?_
    have values := values.imp fun _ _ keyed => keyed.imp fun _ held => held.grows grows
    exact .pure (.of_node (.lets isLoop values bodies frame) nofun)
  cases isLoop with
  | false =>
    refine .bind (.openFrame .lets scope boxed rfl) ?_
    rintro opened frame _ second ⟨rfl, entered⟩
    have inner := scope.opened entered (.inl (.inl rfl))
    refine .bind (analyzePairs_follows initials inner.inRange) ?_
    rintro between bound bound' third values
    exact body between cx.position frame bound bound' values (inner.grows third)
  | true =>
    refine .bind (.openFrame .loop scope boxed rfl) ?_
    rintro opened frame _ second ⟨rfl, entered⟩
    obtain ⟨_, _, _, held, _⟩ := FrameTree.enter_some entered
    have inRange := FrameTree.frame?_lt held
    refine .bind (analyzePairs_follows initials inRange) ?_
    rintro between bound bound' third values
    -- The names are counted before the body, so that it stands in a tail scope.
    have lengths := values.length_eq
    dsimp only
    rw [← lengths]
    refine .bind (.fillLoop (Nat.lt_of_lt_of_le inRange third.size)) ?_
    rintro counted _ _ fourth filled
    have values := values.imp fun _ _ keyed => keyed.imp fun _ held => held.grows fourth
    exact body counted .tail frame bound bound' values (.loop entered third filled)

theorem bindFunctions_follows {frame : FrameId} {pairs : List (Form × Form)}
    (inRange : frame < tree.frames.size) :
    Lockstep regime allow tree (fun _ bound bound' => bound = bound' ∧
        bound.map Prod.snd = pairs.map Prod.snd)
      (bindFunctions frame pairs) (bindFunctions frame pairs) := by
  induction pairs generalizing tree with
  | nil => exact .pure ⟨rfl, rfl⟩
  | cons pair pairs ih =>
    obtain ⟨nameForm, form⟩ := pair
    refine .bind (.settled (bindingName_blames trivial)) ?_
    rintro settled name _ first ⟨rfl, _⟩
    have inRange := Nat.lt_of_lt_of_le inRange first.size
    dsimp only
    split
    · exact .refuse_bind nofun
    · refine .bind (.bindLocal inRange .none nofun (.refl _)) ?_
      rintro bound binding _ second rfl
      refine .bind (ih (Nat.lt_of_lt_of_le inRange second.size)) ?_
      rintro after rest _ _ ⟨rfl, same⟩
      exact .pure ⟨rfl, by simp [same]⟩

theorem analyzeFunctions_follows {pairs : List (BindingId × Form)}
    (parts : ∀ pair ∈ pairs, Follows regime allow self self' pair.2) (scope : cx.InScope tree)
    (flags : allow.Flag cx.boxed boxed) :
    Lockstep regime allow tree (fun after => List.Forall₂ (Keyed (Matches allow after)))
      (analyzeFunctions self cx pairs) (analyzeFunctions self' { cx with boxed } pairs) := by
  induction pairs generalizing tree with
  | nil => exact .pure .nil
  | cons pair pairs ih =>
    obtain ⟨binding, form⟩ := pair
    obtain ⟨function, parts⟩ := List.forall_mem_cons.mp parts
    refine .bind (function tree cx boxed scope flags) fun between first first' grows held => ?_
    refine .bind (ih parts (scope.grows grows)) fun after rest rest' grows others => ?_
    exact .pure (.cons (.mk binding (held.grows grows)) others)

theorem analyzeLetfn_follows {args : List Form}
    (parts : Throughout (Follows regime allow self self') args) (scope : cx.InScope tree)
    (flags : allow.Flag cx.boxed boxed) :
    Lockstep regime allow tree (Matches allow) (analyzeLetfn self cx args span)
      (analyzeLetfn self' { cx with boxed } args span) := by
  refine .bind (.settled (bindingPairs_blames trivial .anywhere)) ?_
  rintro settled pairs _ first ⟨rfl, found⟩
  have scope := scope.grows first
  refine .bind (.openFrame .letfns scope boxed rfl) ?_
  rintro opened frame _ _ ⟨rfl, open_⟩
  have inner := scope.opened open_ (.inl (.inr rfl))
  refine .bind (bindFunctions_follows inner.inRange) ?_
  rintro named bound _ second ⟨rfl, same⟩
  -- All names are bound before the first function is analyzed; the functions are those of the pairs.
  have functions : ∀ pair ∈ bound, Follows regime allow self self' pair.2 := by
    intro pair member
    obtain ⟨other, among, equal⟩ := List.mem_map.mp (same ▸ List.mem_map_of_mem member)
    exact equal ▸ (parts.pairs found other among).2
  have inner := inner.grows second
  refine .bind (analyzeFunctions_follows functions inner.operand (.refl _)) ?_
  intro between held held' third values
  refine .bind (analyzeBody_follows parts.tail (inner.grows third) flags) ?_
  intro after body body' grows bodies
  have values := values.imp fun _ _ keyed => keyed.imp fun _ held => held.grows grows
  exact .pure (.of_node (.letfns values bodies frame) nofun)

/-! ### Functions -/

theorem bindParams_follows {frame : FrameId} {names : List Symbol}
    (inRange : frame < tree.frames.size) :
    Lockstep regime allow tree (fun _ bindings bindings' => bindings = bindings')
      (bindParams span frame names) (bindParams span frame names) := by
  induction names generalizing tree with
  | nil => exact .pure rfl
  | cons name names ih =>
    refine .bind (.bindLocal inRange .none nofun (.refl _)) ?_
    rintro bound binding _ grows rfl
    refine .bind (ih (Nat.lt_of_lt_of_le inRange grows.size)) ?_
    rintro after rest _ _ rfl
    exact .pure rfl

theorem analyzeArity_follows {name : Option Symbol} {uniqueName uniqueName' : String}
    {form : ArityForm} (configs : config.Alike allow config')
    (parts : Throughout (Follows regime allow self self') form.body) (scope : cx.InScope tree)
    (names : allow.Name uniqueName uniqueName') :
    Lockstep regime allow tree (fun after => Arity.Alike (Matches allow after))
      (analyzeArity ⟨host, config⟩ self cx name uniqueName form)
      (analyzeArity ⟨host, config'⟩ self' { cx with boxed } name uniqueName' form) := by
  unfold analyzeArity
  rw [configs.maxParams]
  refine .bind (.settled (Params.parse_blames trivial .anywhere)) ?_
  rintro settled params _ first ⟨rfl, _⟩
  have scope := scope.grows first
  refine .openFunction scope boxed (.mk _ names) fun opened frame _ entered => ?_
  obtain ⟨_, _, _, held, _⟩ := FrameTree.enter_some entered
  -- A function is a tail scope wherever it stands, as it is known from the beginning.
  have inner : Context.InScope opened { cx with frame, position := .tail, boxed := true } :=
    ⟨FrameTree.frame?_lt held, fun _ => .function held rfl rfl⟩
  refine .bind (bindParams_follows inner.inRange) ?_
  rintro bound bindings _ second rfl
  refine .bind (analyzeBody_follows parts (inner.grows second) (.refl _)) ?_
  intro after body body' _ bodies
  exact .pure (.mk bindings params.isVariadic _ bodies)

theorem analyzeArities_follows {name : Option Symbol} {uniqueName uniqueName' : String}
    {earlier : List Signature} {forms : List ArityForm} (configs : config.Alike allow config')
    (parts : ∀ form ∈ forms, Throughout (Follows regime allow self self') form.body)
    (scope : cx.InScope tree) (names : allow.Name uniqueName uniqueName') :
    Lockstep regime allow tree (fun after => List.Forall₂ (Arity.Alike (Matches allow after)))
      (analyzeArities ⟨host, config⟩ self cx name uniqueName earlier forms)
      (analyzeArities ⟨host, config'⟩ self' { cx with boxed } name uniqueName' earlier forms) := by
  induction forms generalizing tree earlier with
  | nil => exact .pure .nil
  | cons form forms ih =>
    obtain ⟨body, parts⟩ := List.forall_mem_cons.mp parts
    refine .bind (analyzeArity_follows configs body scope names) ?_
    rintro between _ _ grows ⟨params, isVariadic, frame, bodies⟩
    have scope := scope.grows grows
    dsimp only [Arity.signature]
    split
    next fault conflict =>
      exact .refuse_bind (Fault.kind_ne_internalFailure (Signature.conflict?_family conflict))
    next =>
      refine .bind (ih parts scope) fun after rest rest' further others => ?_
      exact .pure (.cons (.mk params isVariadic frame (bodies.grows further)) others)

theorem analyzeFunction_follows {args : List Form} (configs : config.Alike allow config')
    (parts : Throughout (Follows regime allow self self') args) (scope : cx.InScope tree) :
    Lockstep regime allow tree (Matches allow) (analyzeFunction ⟨host, config⟩ self cx args span)
      (analyzeFunction ⟨host, config'⟩ self' { cx with boxed } args span) := by
  refine .bind (.settled (functionName_blames .anywhere)) ?_
  rintro settled ⟨name, rest⟩ _ first ⟨rfl, named⟩
  have parts := parts.subset (functionName_rest named)
  refine .bind (.settled (ArityForm.ofForms_blames trivial .anywhere)) ?_
  rintro shaped forms _ second ⟨rfl, found⟩
  refine .bind .freshName fun drawn uniqueName uniqueName' third names => ?_
  have scope := scope.grows (first.trans (second.trans third))
  have bodies := fun form member => (ArityForm.ofForms_ok parts found form member).tail
  refine .bind (analyzeArities_follows configs bodies scope names) fun _ _ _ _ arities => .pure ?_
  exact .of_node (.function name names arities) nofun

/-! ### Control flow -/

theorem analyzeDo_follows {args : List Form}
    (parts : Throughout (Follows regime allow self self') args) (scope : cx.InScope tree)
    (flags : allow.Flag cx.boxed boxed) :
    Lockstep regime allow tree (Matches allow) (analyzeDo self cx args span)
      (analyzeDo self' { cx with boxed } args span) := by
  unfold analyzeDo
  split
  · exact analyzeConstant_follows scope _
  · refine .bind (analyzeSequence_follows parts scope flags) fun _ _ _ _ items => .pure ?_
    exact .of_node (.sequence items) nofun

theorem analyzeIf_follows {args : List Form}
    (parts : Throughout (Follows regime allow self self') args) (scope : cx.InScope tree)
    (flags : allow.Flag cx.boxed boxed) :
    Lockstep regime allow tree (Matches allow) (analyzeIf self cx args span)
      (analyzeIf self' { cx with boxed } args span) := by
  -- With and without an alternative, the parts are analyzed one after the other.
  have branches (condition yes : Form) (no : Option Form)
      (conditional : Follows regime allow self self' condition)
      (positive : Follows regime allow self self' yes)
      (negative : ∀ form ∈ no, Follows regime allow self self' form) :
      Lockstep regime allow tree (Matches allow)
        (do
          let condition ← self cx.operand condition
          let yes ← self cx yes
          let no ← no.mapM (self cx)
          return cx.expr (.branch condition yes no) span)
        (do
          let condition ← self' (Context.operand { cx with boxed }) condition
          let yes ← self' { cx with boxed } yes
          let no ← no.mapM (self' { cx with boxed })
          return (Context.expr { cx with boxed } (.branch condition yes no) span)) := by
    refine .bind (conditional tree cx.operand true scope.operand (.refl _)) ?_
    intro decided test test' first tests
    have scope := scope.grows first
    refine .bind (positive decided cx boxed scope flags) fun taken value value' second values => ?_
    refine .bind (mapM_follows negative (scope.grows second) flags) ?_
    intro after other other' third others
    refine .pure (.of_node (.branch (tests.grows (second.trans third)) ?_ others) nofun)
    exact values.grows third
  match args with
  | [condition, yes] => exact branches condition yes none parts.head parts.tail.head nofun
  | [condition, yes, no] =>
    refine branches condition yes (some no) parts.head parts.tail.head ?_
    rintro _ ⟨⟩
    exact parts.tail.tail.head
  | [] => exact .refuse_bind nofun
  | [_] => exact .refuse_bind nofun
  | _ :: _ :: _ :: _ :: _ => exact .refuse_bind nofun

theorem analyzeQuote_follows {args : List Form} (scope : cx.InScope tree) :
    Lockstep regime allow tree (Matches allow) (analyzeQuote ⟨host, config⟩ cx args span)
      (analyzeQuote ⟨host, config'⟩ { cx with boxed } args span) := by
  unfold analyzeQuote
  split
  · exact analyzeQuoted_follows scope _
  · exact .refuse nofun

theorem analyzeVar_follows {args : List Form} (scope : cx.InScope tree) :
    Lockstep regime allow tree (Matches allow) (analyzeVar ⟨host, config⟩ cx args span)
      (analyzeVar ⟨host, config'⟩ { cx with boxed } args span) := by
  unfold analyzeVar
  split
  · refine .bind .askHost ?_
    rintro asked var _ grows rfl
    cases var with
    | some var =>
      refine .bind (.liftVar (scope.grows grows) boxed var.name) fun _ _ _ _ lifted => .pure ?_
      exact .of_node (.varObject lifted) nofun
    | none =>
      refine .bind .askHost ?_
      rintro qualifying qualified _ _ rfl
      exact .refuse nofun
  · exact .refuse nofun
  · exact .refuse nofun

theorem analyzeThrow_follows {args : List Form}
    (parts : Throughout (Follows regime allow self self') args) (scope : cx.InScope tree) :
    Lockstep regime allow tree (Matches allow) (analyzeThrow self cx args span)
      (analyzeThrow self' { cx with boxed } args span) := by
  unfold analyzeThrow
  split
  · refine .bind (parts.head tree cx.operand true scope.operand (.refl _)) ?_
    intro after value value' _ held
    exact .pure (.of_node (.throwing held) nofun)
  · exact .refuse nofun

theorem analyzeCatch_follows {items : List Form} {clause : Form}
    (parts : Throughout (Follows regime allow self self') items) (scope : cx.InScope tree)
    (flags : allow.Flag cx.boxed boxed) :
    Lockstep regime allow tree (fun after => Handler.Alike (Matches allow after))
      (analyzeCatch self cx items clause) (analyzeCatch self' { cx with boxed } items clause) := by
  refine .bind (.settled (CatchParts.blames trivial)) ?_
  rintro settled shape _ first ⟨rfl, found⟩
  obtain ⟨_, _, _, rfl⟩ := CatchParts.ofItems_ok found
  have scope := scope.grows first
  refine .bind (.openFrame .handler scope boxed rfl) ?_
  rintro opened frame _ second ⟨rfl, open_⟩
  have inner := scope.opened open_ (.inr (.inr rfl))
  refine .bind (.bindLocal inner.inRange .none nofun (.refl _)) ?_
  rintro bound binding _ third rfl
  refine .bind (analyzeBody_follows parts.tail.tail.tail (inner.grows third) flags) ?_
  intro after body body' _ bodies
  exact .pure (.mk shape.exceptionType binding frame bodies)

theorem analyzeFinally_follows {items : List Form}
    (parts : Throughout (Follows regime allow self self') items) (scope : cx.InScope tree) :
    Lockstep regime allow tree (Matches allow) (analyzeFinally self cx items span)
      (analyzeFinally self' { cx with boxed } items span) := by
  refine .bind (.openFrame .cleanup scope boxed rfl) ?_
  rintro opened frame _ grows ⟨rfl, open_⟩
  -- Nothing in a `finally` is in tail position, so its frame need not be a tail scope.
  have inner : (cx.statement.inFrame frame).InScope opened := .opened_apart open_ nofun
  exact analyzeBody_follows parts.tail inner (.refl _)

theorem analyzeTry_follows {args : List Form}
    (parts : Throughout (Follows regime allow self self') args) (scope : cx.InScope tree)
    (flags : allow.Flag cx.boxed boxed) :
    Lockstep regime allow tree (Matches allow) (analyzeTry self cx args span)
      (analyzeTry self' { cx with boxed } args span) := by
  refine .bind (.settled (TryParts.blames .anywhere)) ?_
  rintro settled shape _ first ⟨rfl, found⟩
  have among := TryParts.among found
  have scope := scope.grows first
  refine .bind (.openFrame .guarded scope boxed rfl) ?_
  rintro opened frame _ second ⟨rfl, open_⟩
  have inner := scope.opened open_ (.inr (.inl rfl))
  refine .bind (analyzeBody_follows (parts.subset among.body) inner flags) ?_
  intro guarded body body' third bodies
  -- The clauses stand outside the frame of the body, where the `try` itself stands.
  have scope := scope.grows (second.trans third)
  have handling : Lockstep regime allow guarded
      (fun after => Option.Rel (Handler.Alike (Matches allow after)))
      (shape.handler.mapM fun handler => analyzeCatch self cx handler.1 handler.2)
      (shape.handler.mapM fun handler => analyzeCatch self' { cx with boxed } handler.1 handler.2) := by
    cases clause : shape.handler with
    | none => exact .pure .none
    | some handler =>
      obtain ⟨member, same, _⟩ := among.handler handler clause
      have inside := parts.items member
      rw [same] at inside
      refine .bind (analyzeCatch_follows inside scope flags) fun _ _ _ _ handlers => .pure ?_
      exact .some handlers
  refine .bind handling fun handled handler handler' fourth handlers => ?_
  have scope := scope.grows fourth
  have cleaning : Lockstep regime allow handled (fun after => Option.Rel (Matches allow after))
      (shape.cleanup.mapM fun items => analyzeFinally self cx items span)
      (shape.cleanup.mapM fun items => analyzeFinally self' { cx with boxed } items span) := by
    cases clause : shape.cleanup with
    | none => exact .pure .none
    | some items =>
      obtain ⟨form, member, rfl, _⟩ := among.cleanup items clause
      refine .bind (analyzeFinally_follows (parts.items member) scope) fun _ _ _ _ held => .pure ?_
      exact .some held
  refine .bind cleaning fun after cleanup cleanup' fifth cleanups => .pure (.of_node ?_ nofun)
  refine .guarded (bodies.grows (fourth.trans fifth)) frame (optionRel_of_mem handlers ?_) cleanups
  rintro _ _ _ ⟨exceptionType, binding, frame, held⟩
  exact .mk exceptionType binding frame (held.grows fifth)

theorem analyzeBranches_follows {entries : List (Form × Form)}
    (parts : ∀ entry ∈ entries, Follows regime allow self self' entry.2) (scope : cx.InScope tree)
    (flags : allow.Flag cx.boxed boxed) :
    Lockstep regime allow tree (fun after => List.Forall₂ (Keyed (Matches allow after)))
      (analyzeBranches self cx entries) (analyzeBranches self' { cx with boxed } entries) := by
  induction entries generalizing tree with
  | nil => exact .pure .nil
  | cons entry entries ih =>
    obtain ⟨keyForm, form⟩ := entry
    obtain ⟨branch, parts⟩ := List.forall_mem_cons.mp parts
    refine .bind (.settled (caseInteger_blames trivial)) ?_
    rintro settled key _ first ⟨rfl, _⟩
    have scope := scope.grows first
    refine .bind (branch settled cx boxed scope flags) fun between value value' second held => ?_
    refine .bind (ih parts (scope.grows second)) fun after rest rest' third others => ?_
    exact .pure (.cons (.mk key (held.grows third)) others)

theorem analyzeCase_follows {args : List Form}
    (parts : Throughout (Follows regime allow self self') args) (scope : cx.InScope tree)
    (flags : allow.Flag cx.boxed boxed) :
    Lockstep regime allow tree (Matches allow) (analyzeCase self cx args span)
      (analyzeCase self' { cx with boxed } args span) := by
  refine .bind (.settled (CaseParts.blames trivial .anywhere)) ?_
  rintro settled shape _ first ⟨rfl, found⟩
  obtain ⟨shift, mask, mapSpan, rfl⟩ := CaseParts.ofItems_ok found
  have scope := scope.grows first
  refine .bind (parts.head settled cx.operand true scope.operand (.refl _)) ?_
  intro valued value value' second values
  have scope := scope.grows second
  have inside : Form.map shape.entries mapSpan ∈
      [shape.value, shift, mask, shape.fallback, .map shape.entries mapSpan] := by simp
  have entries := fun entry member => (parts.entries inside entry member).2
  refine .bind (analyzeBranches_follows entries scope flags) ?_
  intro branched branches branches' third choices
  refine .bind (parts.here (by simp) branched cx boxed (scope.grows third) flags) ?_
  intro after fallback fallback' fourth fallbacks
  have choices := choices.imp fun _ _ keyed => keyed.imp fun _ held => held.grows fourth
  refine .pure (.of_node (.dispatch ?_ shape.shift shape.mask choices fallbacks) nofun)
  exact values.grows (third.trans fourth)

/-- In tail position a `recur` is refused for what is wrong with it. -/
theorem analyzeRecur_follows {args : List Form}
    (parts : Throughout (Follows regime allow self self') args) (scope : cx.InScope tree) :
    Lockstep regime allow tree (Matches allow) (analyzeRecur self cx args span)
      (analyzeRecur self' { cx with boxed } args span) := by
  unfold analyzeRecur
  dsimp only
  split
  · exact .refuse_bind nofun
  next tail =>
    have tail : cx.position = .tail := by simpa using tail
    refine .bind (.readTree (fun valid => valid.exists_lineage scope.inRange)
      fun _ alike => alike.lineage cx.frame) ?_
    rintro tree lineage lineage' _ ⟨rfl, climbed, lineages⟩
    rw [lineages.recurTarget_eq]
    rcases (scope.tail tail).recurTarget climbed with ⟨⟨target, expected⟩, aimed⟩ | refused
    · rw [aimed]
      change Lockstep regime allow tree _ (if args.length ≠ expected then _ else _)
        (if args.length ≠ expected then _ else _)
      split
      · exact .refuse_bind nofun
      · cases target with
        | loop frame =>
          refine .bind (analyzeOperands_follows parts (scope.operandAs false) (.refl _)) ?_
          intro after items items' _ held
          exact .pure (.of_node (.recur held (.loop frame)) nofun)
        | function frame =>
          refine .bind (analyzeOperands_follows parts scope.operand (.refl _)) ?_
          intro between items items' first held
          -- The target is a frame that the `recur` stands in, so it can be marked.
          have inRange : frame < between.frames.size := by
            have known := recurTarget_context (FrameTree.lineage_some climbed).2 aimed
            obtain ⟨context, found⟩ := Option.isSome_iff_exists.mp known
            obtain ⟨held, present, _⟩ := Option.bind_eq_some_iff.mp found
            exact Nat.lt_of_lt_of_le (FrameTree.frame?_lt present) first.size
          refine .bind (.updateFunction inRange FnContext.markTail_notes fun _ _ => rfl) ?_
          intro after _ _ second _
          have held := held.imp fun _ _ held => held.grows second
          exact .pure (.of_node (.recur held (.function frame)) nofun)
    · rw [refused]
      exact .refuse_bind nofun

/-! ### Forms that are brought in -/

/-- The forms that a form comes with: those inside it, and those that its native code is interpolated
with, as the host reads them in certain states. -/
inductive Supplies (host : Host σ) (World : σ → Prop) : Form → Form → Prop
  | part {form item sub : Form} (member : item ∈ form.items) (within : sub.Within item) :
      Supplies host World form sub
  | fragment {head new : Form} {text inner : String} {textSpan span : Span} {pieces : List Piece}
      {world after : σ} (shaped : Piece.split? text = some pieces)
      (member : .interpolation inner ∈ pieces) (kept : World world)
      (read : host.readFragment inner textSpan world = .ok [new] after) :
      Supplies host World (.list [head, .atom (.string text) textSpan] span) new

/-- The forms that the analysis of a form may go on to: those that it comes with, and what it expands
to. -/
inductive Brings (regime : Regime host) : Form → Form → Prop
  | supplied {form new : Form} (supplies : Supplies host regime.World form new) :
      Brings regime form new
  | expansion {head new : Form} {args : List Form} {span : Span} {symbol name : Symbol}
      {world after : σ} (headed : head.symbol? = some symbol)
      (kept : regime.World world)
      (found : host.findVar world (host.qualify world symbol) = some ⟨name, true⟩)
      (expanded : host.expandOnce (.list (head :: args) span) world = .ok new after) :
      Brings regime (.list (head :: args) span) new

/-- Both analyses read the same form from an interpolated text. -/
theorem readInterpolation_follows {P : Form → Prop} {text : String}
    (parts : ∀ world after form, regime.World world →
      host.readFragment text span world = .ok [form] after → P form) :
    Lockstep regime allow tree (fun _ form form' => form = form' ∧ P form)
      (readInterpolation ⟨host, config⟩ text span) (readInterpolation ⟨host, config'⟩ text span) := by
  refine .bind (.tryHost (fun _ _ _ kept read => regime.read kept read)
    fun _ _ _ kept unread => (regime.unread kept unread).1) ?_
  rintro asked answer _ _ ⟨rfl, world, kept, told⟩
  have settling : Lockstep regime allow asked (fun _ forms forms' => forms = forms' ∧
      ∃ after, host.readFragment text span world = .ok forms after)
      (settle answer) (settle answer) := by
    rcases told with ⟨forms, after, read, rfl⟩ | ⟨diagnostic, after, unread, rfl⟩
    · exact .pure ⟨rfl, after, read⟩
    · refine .imp (.settle (α := List Form) ?_) nofun
      rintro _ ⟨⟩
      exact (regime.unread kept unread).2
  refine .bind settling ?_
  rintro settled forms _ _ ⟨rfl, after, read⟩
  match forms with
  | [form] => exact .pure ⟨rfl, parts world after form kept read⟩
  | [] => exact .refuse nofun
  | _ :: _ :: _ => exact .refuse nofun

theorem analyzePieces_follows {pieces : List Piece}
    (parts : ∀ text, .interpolation text ∈ pieces → ∀ world after form, regime.World world →
      host.readFragment text span world = .ok [form] after → Follows regime allow self self' form)
    (scope : cx.InScope tree) :
    Lockstep regime allow tree (fun after => List.Forall₂ (Chunk.Alike (Matches allow after)))
      (analyzePieces ⟨host, config⟩ self cx span pieces)
      (analyzePieces ⟨host, config'⟩ self' { cx with boxed } span pieces) := by
  induction pieces generalizing tree with
  | nil => exact .pure .nil
  | cons piece pieces ih =>
    have others := fun text member => parts text (List.mem_cons_of_mem _ member)
    cases piece with
    | code text =>
      refine .bind (ih others scope) fun _ _ _ _ chunks => .pure ?_
      exact .cons (.code text) chunks
    | interpolation text =>
      refine .bind (readInterpolation_follows (parts text (List.mem_cons_self ..))) ?_
      rintro read form _ first ⟨rfl, follows⟩
      have scope := scope.grows first
      refine .bind (follows read cx.operand true scope.operand (.refl _)) ?_
      intro between value value' second held
      refine .bind (ih others (scope.grows second)) fun after chunks chunks' third rest => .pure ?_
      exact .cons (.expr (held.grows third)) rest

theorem analyzeNative_follows {head : Form} {args : List Form}
    (brought : ∀ new, Brings regime (.list (head :: args) span) new →
      Follows regime allow self self' new) (scope : cx.InScope tree) :
    Lockstep regime allow tree (Matches allow) (analyzeNative ⟨host, config⟩ self cx args span)
      (analyzeNative ⟨host, config'⟩ self' { cx with boxed } args span) := by
  unfold analyzeNative
  split
  next text textSpan =>
    cases shaped : Piece.split? text with
    | none => exact .refuse nofun
    | some pieces =>
      have reads (inner : String) (member : .interpolation inner ∈ pieces) (world after : σ)
          (form : Form) (kept : regime.World world)
          (read : host.readFragment inner textSpan world = .ok [form] after) :
          Follows regime allow self self' form :=
        brought form (.supplied (.fragment shaped member kept read))
      refine .bind (analyzePieces_follows reads scope) fun _ _ _ _ chunks => .pure ?_
      exact .of_node (.native chunks) nofun
  · exact .refuse nofun
  · exact .refuse nofun

/-- A macro call goes on with its expansion, or is refused because the host refuses it. -/
theorem analyzeMacroCall_follows {call : Form} {before before' : State σ}
    (states : States regime allow before before') (scope : cx.InScope before.tree)
    (flags : allow.Flag cx.boxed boxed)
    (expansions : ∀ expansion after, host.expandOnce call before.world = .ok expansion after →
      Follows regime allow self self' expansion) :
    Outcome regime allow before.tree (Matches allow)
      (analyzeMacroCall ⟨host, config⟩ self cx call before)
      (analyzeMacroCall ⟨host, config'⟩ self' { cx with boxed } call before') := by
  -- The call is put on both stacks, and taken off at the end whatever comes of it.
  have pushed := states.pushed call
  change Outcome regime allow (before.pushed call).tree _
    (finishing popExpansion (AnalysisM.noting (analyzeExpansion ⟨host, config⟩ self cx call))
      (before.pushed call))
    (finishing popExpansion
      (AnalysisM.noting (analyzeExpansion ⟨host, config'⟩ self' { cx with boxed } call))
      (before'.pushed call))
  refine .popping (.noting ?_)
  have same : (before.pushed call).world = (before'.pushed call).world := states.world
  cases expanded : host.expandOnce call (before.pushed call).world with
  | ok expansion world =>
    have moved := pushed.moved (regime.expanded states.kept expanded)
    rw [analyzeExpansion_of_ok expanded, analyzeExpansion_of_ok (same ▸ expanded)]
    exact expansions expansion world expanded before.tree cx boxed scope flags _ _ moved rfl
  | error cause world =>
    have moved := pushed.moved (regime.unexpanded states.kept expanded)
    rw [analyzeExpansion_of_error expanded, analyzeExpansion_of_error (same ▸ expanded)]
    exact .error moved (regime.expansion call cause)

theorem analyzeApplication_follows {head : Form} {args : List Form}
    (configs : config.Alike allow config')
    (brought : ∀ new, Brings regime (.list (head :: args) span) new →
      Follows regime allow self self' new)
    (scope : cx.InScope tree) (flags : allow.Flag cx.boxed boxed) :
    Lockstep regime allow tree (Matches allow)
      (analyzeApplication ⟨host, config⟩ self cx head args span)
      (analyzeApplication ⟨host, config'⟩ self' { cx with boxed } head args span) := by
  have parts : Throughout (Follows regime allow self self') (head :: args) :=
    fun item member sub within => brought sub (.supplied (.part member within))
  unfold analyzeApplication
  cases headed : head.symbol? with
  | none => exact analyzeCall_follows configs parts scope
  | some symbol =>
    refine .bind (.resolve scope boxed symbol) ?_
    rintro resolved found _ grows ⟨rfl, refers⟩
    have scope := scope.grows grows
    match found with
    | some ⟨.binding source, crossed⟩ => exact analyzeCall_follows configs parts scope
    | some ⟨.self target, crossed⟩ =>
      exact analyzeSelfCall_follows parts.tail scope (refers _ rfl)
    | none =>
      -- The expansion is asked of the state in which the head was found to be a macro.
      refine .askHost_bind ?_
      rintro before before' states rfl
      dsimp only
      match asked : host.findVar before.world (host.qualify before.world symbol) with
      | some ⟨name, true⟩ =>
        refine analyzeMacroCall_follows states scope flags fun expansion after expanded => ?_
        exact brought expansion (.expansion headed states.kept asked expanded)
      | some ⟨_, false⟩ => exact analyzeCall_follows configs parts scope _ _ states rfl
      | none => exact analyzeCall_follows configs parts scope _ _ states rfl

/-! ### Forms -/

theorem analyzeSpecial_follows {special : Special} {head : Form} {args : List Form}
    (configs : config.Alike allow config')
    (brought : ∀ new, Brings regime (.list (head :: args) span) new →
      Follows regime allow self self' new)
    (scope : cx.InScope tree) (flags : allow.Flag cx.boxed boxed) :
    Lockstep regime allow tree (Matches allow)
      (analyzeSpecial ⟨host, config⟩ self cx special args span)
      (analyzeSpecial ⟨host, config'⟩ self' { cx with boxed } special args span) := by
  have parts : Throughout (Follows regime allow self self') args := fun item member sub within =>
    brought sub (.supplied (.part (List.mem_cons_of_mem head member) within))
  cases special with
  | define => exact analyzeDef_follows parts scope
  | function => exact analyzeFunction_follows configs parts scope
  | lets => exact analyzeLet_follows parts scope flags
  | loop => exact analyzeLet_follows parts scope flags
  | letfns => exact analyzeLetfn_follows parts scope flags
  | sequence => exact analyzeDo_follows parts scope flags
  | branch => exact analyzeIf_follows parts scope flags
  | quotation => exact analyzeQuote_follows scope
  | varObject => exact analyzeVar_follows scope
  | throwing => exact analyzeThrow_follows parts scope
  | guarded => exact analyzeTry_follows parts scope flags
  | dispatch => exact analyzeCase_follows parts scope flags
  | recur => exact analyzeRecur_follows parts scope
  | native => exact analyzeNative_follows brought scope

/-- One step of two analyses goes in step if they do so for the forms that are brought in. -/
theorem analyzeStep_follows {form : Form} (configs : config.Alike allow config')
    (brought : ∀ new, Brings regime form new → Follows regime allow self self' new) :
    Follows regime allow (analyzeStep ⟨host, config⟩ self) (analyzeStep ⟨host, config'⟩ self') form := by
  intro tree cx boxed scope flags
  have parts : Throughout (Follows regime allow self self') form.items :=
    fun item member sub within => brought sub (.supplied (.part member within))
  unfold analyzeStep
  split
  · exact analyzeSymbol_follows scope flags _
  · unfold analyzeList
    split
    · exact analyzeSpecial_follows configs brought scope flags
    · exact analyzeApplication_follows configs brought scope flags
  · split
    · exact analyzeQuoted_follows scope _
    · split
      · refine .bind (analyzeOperands_follows parts scope.operand (.refl _)) ?_
        intro after items items' _ held
        exact .pure (.of_node (.vector held) nofun)
      · refine .bind (analyzeOperands_follows parts scope.operand (.refl _)) ?_
        intro after items items' _ held
        exact .pure (.of_node (.set held) nofun)
      next entries mapSpan _ _ _ =>
        have pairs : ∀ entry ∈ entries, Follows regime allow self self' entry.1 ∧
            Follows regime allow self self' entry.2 := by
          intro entry member
          constructor <;> exact parts.here (List.mem_flatMap.mpr ⟨entry, member, by simp⟩)
        refine .bind (analyzeEntries_follows pairs scope) fun after items items' _ held => .pure ?_
        exact .of_node (.map held) nofun
      · exact analyzeQuoted_follows scope _

/-! ### Whole analyses -/

theorem Config.Alike.refl (config : Config) : config.Alike allow config :=
  ⟨rfl, fun _ => .refl _⟩

/-- Without tolerance, runs that go in step are equal. -/
theorem Outcome.eq {first second : EStateM.Result Halt (State σ) Expr}
    (outcome : Outcome regime .strict tree (Matches .strict) first second) : first = second := by
  cases outcome with
  | ok states grows related => rw [states.eq, related.alike.eq]
  | error states halts => rw [states.eq]

theorem FrameTree.alike_initial : FrameTree.initial.Alike allow FrameTree.initial := by
  refine ⟨fun id => ?_, fun id => .none⟩
  match id with
  | 0 => exact .some ⟨rfl, rfl, rfl, rfl, .nil, .nil, .none, rfl⟩
  | _ + 1 => exact .none

/-- A form on its own is analyzed over the initial tree. -/
theorem Follows.topLevel {form : Form} {world : σ} {names names' : NameSupply}
    (follows : Follows regime allow self self' form) (kept : regime.World world)
    (supplies : names.Alike allow names') :
    Outcome regime allow .initial (Matches allow) (self .topLevel form ⟨world, .initial, names, []⟩)
      (self' .topLevel form ⟨world, .initial, names', []⟩) := by
  have scope : Context.topLevel.InScope FrameTree.initial := ⟨Nat.one_pos, nofun⟩
  have valid := FrameTree.valid_initial
  exact follows .initial .topLevel true scope (.refl _) _ _
    ⟨rfl, kept, valid, valid.settled, FrameTree.alike_initial, supplies, rfl⟩ rfl

/-- Two analyses of equal depth go in step, if running out of depth is no obstacle. -/
theorem analyzeForm_follows (configs : config.Alike allow config')
    (exhausted : regime.Halts .exhausted) (depth : Nat) (form : Form) :
    Follows regime allow (analyzeForm ⟨host, config⟩ depth) (analyzeForm ⟨host, config'⟩ depth)
      form := by
  induction depth generalizing form with
  | zero =>
    rintro tree cx boxed scope flags before before' states rfl
    exact .error states exhausted
  | succ depth ih => exact analyzeStep_follows configs fun new _ => ih new

/-- Analyses that may halt for whatever reason. -/
def Regime.any (host : Host σ) (start : σ) : Regime host :=
  .reachable host start (fun _ => True) (fun _ _ _ => trivial) (fun _ _ => trivial)
    (fun _ _ _ => trivial) fun _ _ _ _ _ _ _ => trivial

/-- Sessions over a host in the same state. -/
structure Session.Alike (allow : Tolerance) (first second : Session σ) : Prop where
  world : first.world = second.world
  names : first.names.Alike allow second.names
  expansions : first.expansions = second.expansions

theorem Session.Alike.eq {first second : Session σ} (alike : first.Alike allow second)
    (unmoved : allow.shift = 0) : second = first := by
  have names : second.names.issued = first.names.issued := by
    rw [show second.names.issued = first.names.issued + allow.shift from alike.names, unmoved,
      Nat.add_zero]
  have supplies : second.names = first.names := congrArg NameSupply.mk names
  cases first
  cases second
  cases alike.world
  cases supplies
  cases alike.expansions
  rfl

/-- What is kept by two analyses of a form that go in step. -/
structure Session.Answer (regime : Regime host) (allow : Tolerance)
    (first second : Except Halt Analysis × Session σ) : Prop where
  results : Answers allow first.1 second.1
  sessions : first.2.Alike allow second.2
  kept : regime.World first.2.world
  halts : ∀ halt, first.1 = .error halt → regime.Halts halt

/-- Analyses that go in step give alike results and leave alike sessions, whatever is left on the stacks
from earlier ones. -/
theorem Follows.analyze {depth depth' : Nat} {form : Form} {session session' : Session σ}
    (follows : Follows regime allow (analyzeForm ⟨host, config⟩ depth)
      (analyzeForm ⟨host, config'⟩ depth') form) (world : session.world = session'.world)
    (names : session.names.Alike allow session'.names) (kept : regime.World session.world) :
    Session.Answer regime allow ((Session.analyze ⟨host, config⟩ depth form).run session)
      ((Session.analyze ⟨host, config'⟩ depth' form).run session') := by
  have outcome := follows.topLevel kept names
  rw [world] at outcome
  change Session.Answer regime allow (Session.analyze ⟨host, config⟩ depth form session)
    (Session.analyze ⟨host, config'⟩ depth' form session')
  unfold Session.analyze
  rw [world]
  generalize analyzeForm _ depth _ _ _ = result at outcome
  generalize analyzeForm _ depth' _ _ _ = result' at outcome
  cases outcome with
  | ok states grows related =>
    exact ⟨.ok ⟨related.alike, states.tree⟩, ⟨states.world, states.names, states.expansions⟩,
      states.kept, nofun⟩
  | error states halts =>
    refine ⟨.error _, ⟨states.world, states.names, states.expansions⟩, states.kept, ?_⟩
    rintro _ ⟨⟩
    exact halts

end LispScope
