import LispScope.Proofs.Accord
import LispScope.Proofs.Tandem

/-!
# Forms whose analyses go on in tandem

Main statement: `analyzeForm_tandem`. The analyses of two forms that are alike, in frames that exist,
go on in tandem. There is one lemma for each kind of form, which follows the analysis of that kind and
uses the rules for single steps. Matching results are given as one expression over twins, from which
both are read off.
-/
namespace LispScope

open AnalysisM

variable {σ : Type} {host : Host σ} {start : σ} {config : Config} {look : Resemblance.For host start}
  {self self' : Recursion σ} {tree : FrameTree} {cx : Context} {span span' : Span}

/-- Two ways of analyzing forms go on in tandem for forms that are alike. -/
def Keeps (look : Resemblance.For host start) (self self' : Recursion σ) : Prop :=
  ∀ {tree : FrameTree} {cx : Context} {form form' : Form},
    cx.frame < tree.frames.size → look.Like form form' →
    Tandem host start tree (fun _ => Expr.Matches) (self cx form)
      (self' cx form')

/-- What is read off something over twins, and its twin. -/
inductive Read (read : (Twin → Expr) → α → β) : β → β → Prop
  | mk (both : α) : Read read (read Twin.first both) (read Twin.second both)

/-! ### Constants and names -/

theorem analyzeConstant_tandem (value : Datum) :
    Tandem host start tree (fun _ => Expr.Matches) (analyzeConstant cx value span)
      (analyzeConstant cx value span') := by
  unfold analyzeConstant
  split
  · refine .bind (.liftConstant value) ?_
    rintro after constant _ _ rfl
    exact .pure (.of_twins (.literal value (some constant)) _ _ _)
  · exact .pure (.of_twins (.literal value none) _ _ _)

theorem analyzeQuoted_tandem {form form' : Form} (like : look.Like form form') :
    Tandem host start tree (fun _ => Expr.Matches) (analyzeQuoted ⟨host, config⟩ cx form span)
      (analyzeQuoted ⟨host, config⟩ cx form' span') := by
  unfold analyzeQuoted
  rw [look.constant_eq host.internKeyword like]
  refine .bind (.runHost fun world => form.constant_keeps fun name _ => .internKeyword name) ?_
  rintro after value _ _ ⟨rfl, rfl⟩
  exact analyzeConstant_tandem value

theorem analyzeSymbol_tandem (symbol : Symbol) :
    Tandem host start tree (fun _ => Expr.Matches) (analyzeSymbol ⟨host, config⟩ cx symbol span)
      (analyzeSymbol ⟨host, config⟩ cx symbol span') := by
  refine .bind (.resolve symbol) ?_
  rintro after found _ _ ⟨rfl, rfl, refers⟩
  match found with
  | some ⟨.binding source, crossed⟩ =>
    refine .bind (.useBinding ⟨source, crossed⟩) ?_
    rintro used binding _ _ rfl
    exact .pure (.of_twins (.localRef symbol binding cx.boxed) _ _ _)
  | some ⟨.self target, crossed⟩ =>
    refine .bind (.useSelf ⟨target, crossed⟩) fun _ _ _ _ _ => ?_
    exact .pure (.of_twins (.selfRef symbol target) _ _ _)
  | none =>
    refine .bind (.askHost _) ?_
    rintro asked var _ _ ⟨rfl, rfl⟩
    cases var with
    | some var =>
      refine .bind (.liftVar var.name) ?_
      rintro after lifted _ _ rfl
      exact .pure (.of_twins (.varValue lifted) _ _ _)
    | none =>
      dsimp only
      split
      · exact .refuse _ _
      · exact .refuse _ _

/-! ### Bodies and operands -/

theorem analyzeSequence_tandem (keeps : Keeps look self self')
    {forms forms' : List Form} (like : List.Forall₂ look.Like forms forms')
    (inRange : cx.frame < tree.frames.size) :
    Tandem host start tree (fun _ => Read List.map) (analyzeSequence self cx forms)
      (analyzeSequence self' cx forms') := by
  induction like generalizing tree with
  | nil => exact .pure (.mk [])
  | cons first rest ih =>
    cases rest with
    | nil =>
      refine .bind (keeps inRange first) fun _ _ _ _ held => ?_
      exact .pure (.mk [Twin.mk _ _ held])
    -- Only the last form stands where the sequence stands.
    | cons second rest =>
      have statement : cx.statement.frame < tree.frames.size := inRange
      refine .bind (keeps statement first) fun between _ _ builds held => ?_
      refine .bind (ih (Nat.lt_of_lt_of_le inRange builds.size)) ?_
      rintro after _ _ _ ⟨items⟩
      exact .pure (.mk (⟨_, _, held⟩ :: items))

theorem analyzeBody_tandem (keeps : Keeps look self self')
    {forms forms' : List Form} (like : List.Forall₂ look.Like forms forms')
    (inRange : cx.frame < tree.frames.size) :
    Tandem host start tree (fun _ => Expr.Matches) (analyzeBody self cx forms span)
      (analyzeBody self' cx forms' span') := by
  have whole := analyzeSequence_tandem keeps like inRange
  rcases like with _ | ⟨first, _ | ⟨second, rest⟩⟩
  · exact analyzeConstant_tandem (.atom .nil)
  · exact keeps inRange first
  · refine .bind whole ?_
    rintro after _ _ _ ⟨items⟩
    exact .pure (.of_twins (.sequence items) _ _ _)

theorem analyzeOperands_tandem (keeps : Keeps look self self')
    {forms forms' : List Form} (like : List.Forall₂ look.Like forms forms')
    (inRange : cx.frame < tree.frames.size) :
    Tandem host start tree (fun _ => Read List.map) (analyzeOperands self cx forms)
      (analyzeOperands self' cx forms') := by
  induction like generalizing tree with
  | nil => exact .pure (.mk [])
  | cons first rest ih =>
    refine .bind (keeps inRange first) fun between _ _ builds held => ?_
    refine .bind (ih (Nat.lt_of_lt_of_le inRange builds.size)) ?_
    rintro after _ _ _ ⟨items⟩
    exact .pure (.mk (⟨_, _, held⟩ :: items))

theorem analyzeEntries_tandem (keeps : Keeps look self self')
    {entries entries' : List (Form × Form)} (like : List.Forall₂ (Paired look.Like) entries entries')
    (inRange : cx.operand.frame < tree.frames.size) :
    Tandem host start tree (fun _ => Read fun f => List.map (Prod.map f f))
      (analyzeEntries self cx entries)
      (analyzeEntries self' cx entries') := by
  induction like generalizing tree with
  | nil => exact .pure (.mk [])
  | cons first rest ih =>
    obtain ⟨keys, values⟩ := first
    refine .bind (keeps inRange keys) fun between _ _ builds key => ?_
    have inRange := Nat.lt_of_lt_of_le inRange builds.size
    refine .bind (keeps inRange values) fun between _ _ builds value => ?_
    refine .bind (ih (Nat.lt_of_lt_of_le inRange builds.size)) ?_
    rintro after _ _ _ ⟨items⟩
    exact .pure (.mk ((⟨_, _, key⟩, ⟨_, _, value⟩) :: items))

theorem mapM_tandem (keeps : Keeps look self self') {form form' : Option Form}
    (like : Option.Rel look.Like form form') (inRange : cx.frame < tree.frames.size) :
    Tandem host start tree (fun _ => Read Option.map) (form.mapM (self cx))
      (form'.mapM (self' cx)) := by
  cases like with
  | none => exact .pure (.mk none)
  | some like =>
    refine .bind (keeps inRange like) fun _ _ _ _ held => ?_
    exact .pure (.mk (some (Twin.mk _ _ held)))

/-! ### Definitions and applications -/

theorem analyzeDef_tandem (keeps : Keeps look self self')
    {args args' : List Form} (like : List.Forall₂ look.Like args args')
    (inRange : cx.operand.frame < tree.frames.size) :
    Tandem host start tree (fun _ => Expr.Matches) (analyzeDef ⟨host, config⟩ self cx args span)
      (analyzeDef ⟨host, config⟩ self' cx args' span') := by
  refine .bind (.askHost _) ?_
  rintro asked current _ _ ⟨rfl, rfl⟩
  refine .bind (.settle (look.defParts like)) ?_
  rintro settled parts parts' _ ⟨rfl, _, names, values⟩
  rw [← names]
  refine .bind (.runHost fun _ => .internVar _) ?_
  rintro interned var _ _ ⟨rfl, rfl⟩
  refine .bind (.liftVar var.name) ?_
  rintro lifting lifted _ builds rfl
  refine .bind (mapM_tandem keeps values (Nat.lt_of_lt_of_le inRange builds.size)) ?_
  rintro after _ _ _ ⟨value⟩
  exact .pure (.of_twins (.define lifted value) _ _ _)

theorem Expr.Matches.isUnboxedOperator_eq {head head' : Expr} (matching : head.Matches head') :
    isUnboxedOperator config head' = isUnboxedOperator config head := by
  cases matching with
  | mk node => cases node <;> rfl

theorem analyzeCall_tandem (keeps : Keeps look self self') {head head' : Form}
    {args args' : List Form} (heads : look.Like head head')
    (like : List.Forall₂ look.Like args args') (inRange : cx.operand.frame < tree.frames.size) :
    Tandem host start tree (fun _ => Expr.Matches)
      (analyzeCall ⟨host, config⟩ self cx head args span)
      (analyzeCall ⟨host, config⟩ self' cx head' args' span') := by
  refine .bind (keeps inRange heads) fun between operator operator' builds held => ?_
  dsimp only
  -- Whether the operands are boxed is up to the operator, and what decides it has no span.
  rw [held.isUnboxedOperator_eq]
  generalize isUnboxedOperator config operator = fast
  have operands : (cx.operandAs !fast).frame < between.frames.size :=
    Nat.lt_of_lt_of_le inRange builds.size
  refine .bind (analyzeOperands_tandem keeps like operands) ?_
  rintro after _ _ _ ⟨items⟩
  exact .pure (.of_twins (.call ⟨_, _, held⟩ items fast) _ _ _)

theorem analyzeSelfCall_tandem (keeps : Keeps look self self')
    {found : Found FrameId} {args args' : List Form} (like : List.Forall₂ look.Like args args')
    (inRange : cx.operand.frame < tree.frames.size) :
    Tandem host start tree (fun _ => Expr.Matches) (analyzeSelfCall self cx found args span)
      (analyzeSelfCall self' cx found args' span') := by
  refine .bind (.useSelf found) fun used _ _ first _ => ?_
  refine .bind .noteSelfCall fun marked _ _ second _ => ?_
  have inRange := Nat.lt_of_lt_of_le inRange (first.trans second).size
  refine .bind (analyzeOperands_tandem keeps like inRange) ?_
  rintro after _ _ _ ⟨items⟩
  exact .pure (.of_twins (.selfCall found.target items found.crossed) _ _ _)

theorem analyzeMacroCall_tandem (keeps : Keeps look self self')
    {call call' : Form} (like : look.Like call call') (inRange : cx.frame < tree.frames.size) :
    Tandem host start tree (fun _ => Expr.Matches) (analyzeMacroCall ⟨host, config⟩ self cx call)
      (analyzeMacroCall ⟨host, config⟩ self' cx call') := by
  refine .bind (.pushExpansion call call') ?_
  rintro pushed _ _ _ rfl
  refine .popping (.noting (.bind (.tryHost (fun _ reached => look.expand reached like)
    (fun _ _ _ => .expanded) fun _ _ _ => .unexpanded) ?_))
  rintro asked answer answer' _ ⟨rfl, answers⟩
  cases answers with
  | ok expansions => exact keeps inRange expansions
  | error cause cause' => exact .throw _ _

theorem analyzeApplication_tandem (keeps : Keeps look self self')
    {head head' : Form} {args args' : List Form} (heads : look.Like head head')
    (like : List.Forall₂ look.Like args args')
    (calls : look.Like (.list (head :: args) span) (.list (head' :: args') span'))
    (inRange : cx.frame < tree.frames.size) :
    Tandem host start tree (fun _ => Expr.Matches)
      (analyzeApplication ⟨host, config⟩ self cx head args span)
      (analyzeApplication ⟨host, config⟩ self' cx head' args' span') := by
  unfold analyzeApplication
  rw [look.symbol?_eq heads]
  cases head.symbol? with
  | none => exact analyzeCall_tandem keeps heads like inRange
  | some symbol =>
    refine .bind (.resolve symbol) ?_
    rintro resolved found _ _ ⟨rfl, rfl, refers⟩
    match found with
    | some ⟨.binding source, crossed⟩ => exact analyzeCall_tandem keeps heads like inRange
    | some ⟨.self target, crossed⟩ => exact analyzeSelfCall_tandem keeps like inRange
    | none =>
      refine .bind (.askHost _) ?_
      rintro asked var _ _ ⟨rfl, rfl⟩
      match var with
      | some ⟨name, true⟩ => exact analyzeMacroCall_tandem keeps calls inRange
      | some ⟨name, false⟩ => exact analyzeCall_tandem keeps heads like inRange
      | none => exact analyzeCall_tandem keeps heads like inRange

/-! ### Local names -/

theorem analyzePairs_tandem (keeps : Keeps look self self') {isLoop : Bool}
    {pairs pairs' : List (Form × Form)} (like : List.Forall₂ (Paired look.Like) pairs pairs')
    (inRange : (cx.operandAs false).frame < tree.frames.size) :
    Tandem host start tree (fun _ => Read fun f => List.map (Prod.map id f))
      (analyzePairs self cx isLoop pairs)
      (analyzePairs self' cx isLoop pairs') := by
  induction like generalizing tree with
  | nil => exact .pure (.mk [])
  | cons first rest ih =>
    obtain ⟨names, values⟩ := first
    refine .bind (.settle (look.bindingName names)) ?_
    rintro settled name _ _ ⟨rfl, found, rfl⟩
    refine .bind (keeps inRange values) fun valued value value' first held => ?_
    refine .bind (.readTree fun second matching => matching.isUnboxable held) ?_
    rintro asked unboxable _ _ ⟨rfl, _, rfl⟩
    -- The names of a loop get other values later, so what they are given first is not kept.
    have initials : Option.Rel Expr.Matches (if isLoop then none else some value)
        (if isLoop then none else some value') := by
      cases isLoop
      · exact .some held
      · exact .none
    refine .bind (.bindLocal (bindingName_plain found) initials) ?_
    rintro bound binding _ second rfl
    refine .bind (ih (Nat.lt_of_lt_of_le inRange (first.trans second).size)) ?_
    rintro after _ _ _ ⟨items⟩
    exact .pure (.mk ((binding, ⟨_, _, held⟩) :: items))

theorem forall₂_head_tail {R : α → β → Prop} {first : List α} {second : List β}
    (related : List.Forall₂ R first second) :
    Option.Rel R first.head? second.head? ∧ List.Forall₂ R first.tail second.tail := by
  cases related with
  | nil => exact ⟨.none, .nil⟩
  | cons head tail => exact ⟨.some head, tail⟩

theorem analyzeLet_tandem (keeps : Keeps look self self') {isLoop : Bool}
    {args args' : List Form} (like : List.Forall₂ look.Like args args')
    (inRange : cx.frame < tree.frames.size) :
    Tandem host start tree (fun _ => Expr.Matches) (analyzeLet self isLoop cx args span)
      (analyzeLet self' isLoop cx args' span') := by
  obtain ⟨heads, tails⟩ := forall₂_head_tail like
  refine .bind (.settle (look.bindingPairs heads)) ?_
  rintro settled pairs pairs' _ ⟨rfl, _, related⟩
  refine .bind (.openFrame _ inRange) ?_
  rintro opened frame _ _ ⟨rfl, inner, _⟩
  have bindings : ((cx.inFrame frame).operandAs false).frame < opened.frames.size := inner
  refine .bind (analyzePairs_tandem keeps related bindings) ?_
  rintro bound _ _ builds ⟨items⟩
  have rest {counted : FrameTree} (position : Position) (builds : opened.Builds counted) :
      Tandem host start counted (fun _ => Expr.Matches)
        (do
          let body ← analyzeBody self ((cx.inFrame frame).inPosition position) args.tail span
          return cx.expr (.lets isLoop (items.map (Prod.map id Twin.first)) body frame) span)
        (do
          let body ← analyzeBody self' ((cx.inFrame frame).inPosition position) args'.tail span'
          return cx.expr (.lets isLoop (items.map (Prod.map id Twin.second)) body frame) span') := by
    have body : ((cx.inFrame frame).inPosition position).frame < counted.frames.size :=
      Nat.lt_of_lt_of_le inner builds.size
    refine .bind (analyzeBody_tandem keeps tails body) fun after _ _ _ held => ?_
    exact .pure (.of_twins (.lets isLoop items ⟨_, _, held⟩ frame) _ _ _)
  cases isLoop with
  | true =>
    simp only [List.length_map]
    exact .bind .fillLoop fun counted _ _ counts _ => rest .tail (builds.trans counts)
  | false => exact rest cx.position builds

theorem bindFunctions_tandem {frame : FrameId} {pairs pairs' : List (Form × Form)}
    (like : List.Forall₂ (Paired look.Like) pairs pairs') :
    Tandem host start tree (fun _ => List.Forall₂ (Keyed look.Like)) (bindFunctions frame pairs)
      (bindFunctions frame pairs') := by
  induction like generalizing tree with
  | nil => exact .pure .nil
  | cons first rest ih =>
    obtain ⟨names, values⟩ := first
    refine .bind (.settle (look.bindingName names)) ?_
    rintro settled name _ _ ⟨rfl, found, rfl⟩
    dsimp only
    rw [look.head?_eq values]
    split
    · exact .refuse_bind
    · refine .bind (.bindLocal (bindingName_plain found) .none) ?_
      rintro bound binding _ _ rfl
      refine .bind ih fun after _ _ _ others => ?_
      exact .pure (.cons (.mk binding values) others)

theorem analyzeFunctions_tandem (keeps : Keeps look self self')
    {pairs pairs' : List (BindingId × Form)} (like : List.Forall₂ (Keyed look.Like) pairs pairs')
    (inRange : cx.frame < tree.frames.size) :
    Tandem host start tree (fun _ => Read fun f => List.map (Prod.map id f))
      (analyzeFunctions self cx pairs)
      (analyzeFunctions self' cx pairs') := by
  induction like generalizing tree with
  | nil => exact .pure (.mk [])
  | cons first rest ih =>
    obtain ⟨binding, values⟩ := first
    refine .bind (keeps inRange values) fun between _ _ builds held => ?_
    refine .bind (ih (Nat.lt_of_lt_of_le inRange builds.size)) ?_
    rintro after _ _ _ ⟨items⟩
    exact .pure (.mk ((binding, ⟨_, _, held⟩) :: items))

theorem analyzeLetfn_tandem (keeps : Keeps look self self')
    {args args' : List Form} (like : List.Forall₂ look.Like args args')
    (inRange : cx.frame < tree.frames.size) :
    Tandem host start tree (fun _ => Expr.Matches) (analyzeLetfn self cx args span)
      (analyzeLetfn self' cx args' span') := by
  obtain ⟨heads, tails⟩ := forall₂_head_tail like
  refine .bind (.settle (look.bindingPairs heads)) ?_
  rintro settled pairs pairs' _ ⟨rfl, _, related⟩
  refine .bind (.openFrame _ inRange) ?_
  rintro opened frame _ _ ⟨rfl, inner, _⟩
  refine .bind (bindFunctions_tandem related) fun named bound bound' first functions => ?_
  have operands : (cx.inFrame frame).operand.frame < named.frames.size :=
    Nat.lt_of_lt_of_le inner first.size
  refine .bind (analyzeFunctions_tandem keeps functions operands) ?_
  rintro between _ _ second ⟨items⟩
  have body : (cx.inFrame frame).frame < between.frames.size :=
    Nat.lt_of_lt_of_le inner (first.trans second).size
  refine .bind (analyzeBody_tandem keeps tails body) fun after _ _ _ held => ?_
  exact .pure (.of_twins (.letfns items ⟨_, _, held⟩ frame) _ _ _)

/-! ### Functions -/

theorem bindParams_tandem {frame : FrameId} {names : List Symbol}
    (plain : ∀ name ∈ names, name.isQualified = false) :
    Tandem host start tree (fun _ bindings bindings' => bindings = bindings')
      (bindParams span frame names) (bindParams span' frame names) := by
  induction names generalizing tree with
  | nil => exact .pure rfl
  | cons name names ih =>
    obtain ⟨here, others⟩ := List.forall_mem_cons.mp plain
    refine .bind (.bindLocal here .none) ?_
    rintro bound binding _ _ rfl
    refine .bind (ih others) ?_
    rintro after rest _ _ rfl
    exact .pure rfl

theorem analyzeArity_tandem (keeps : Keeps look self self')
    {name : Option Symbol} {uniqueName : String} {form form' : ArityForm}
    (like : look.Arities form form') (inRange : cx.frame < tree.frames.size) :
    Tandem host start tree (fun _ => Read Arity.mapBody)
      (analyzeArity ⟨host, config⟩ self cx name uniqueName form)
      (analyzeArity ⟨host, config⟩ self' cx name uniqueName form') := by
  refine .bind (.settle (look.paramsParse _ like.params)) ?_
  rintro settled params _ _ ⟨rfl, parsed, rfl⟩
  refine .bind (.openFrame _ inRange) ?_
  rintro opened frame _ _ ⟨rfl, inner, held, found, kind⟩
  refine .bind (.fillFunction found kind) fun filled _ _ fills _ => ?_
  refine .bind (bindParams_tandem (parse_plain parsed)) ?_
  rintro bound bindings _ builds rfl
  have body : (show Context from { cx with frame, position := .tail, boxed := true }).frame <
      bound.frames.size := Nat.lt_of_lt_of_le inner (fills.trans builds).size
  refine .bind (analyzeBody_tandem keeps like.body body) fun after _ _ _ held => ?_
  exact .pure (.mk (Arity.mk bindings params.isVariadic frame (Twin.mk _ _ held)))

theorem analyzeArities_tandem (keeps : Keeps look self self')
    {name : Option Symbol} {uniqueName : String} {earlier : List Signature}
    {forms forms' : List ArityForm} (like : List.Forall₂ look.Arities forms forms')
    (inRange : cx.frame < tree.frames.size) :
    Tandem host start tree (fun _ => Read fun f => List.map (Arity.mapBody f))
      (analyzeArities ⟨host, config⟩ self cx name uniqueName earlier forms)
      (analyzeArities ⟨host, config⟩ self' cx name uniqueName earlier
        forms') := by
  induction like generalizing tree earlier with
  | nil => exact .pure (.mk [])
  | cons first rest ih =>
    refine .bind (analyzeArity_tandem keeps first inRange) ?_
    rintro between _ _ builds ⟨arity⟩
    dsimp only [Arity.signature, Arity.mapBody]
    split
    · exact .refuse_bind
    · refine .bind (ih (Nat.lt_of_lt_of_le inRange builds.size)) ?_
      rintro after _ _ _ ⟨items⟩
      exact .pure (.mk (arity :: items))

theorem analyzeFunction_tandem (keeps : Keeps look self self')
    {args args' : List Form} (like : List.Forall₂ look.Like args args')
    (inRange : cx.frame < tree.frames.size) :
    Tandem host start tree (fun _ => Expr.Matches) (analyzeFunction ⟨host, config⟩ self cx args span)
      (analyzeFunction ⟨host, config⟩ self' cx args' span') := by
  refine .bind (.settle (look.functionName like)) ?_
  rintro settled _ _ _ ⟨rfl, _, ⟨name, rests⟩⟩
  refine .bind (.settle (look.arityForms rests)) ?_
  rintro shaped forms forms' _ ⟨rfl, _, related⟩
  refine .bind (.freshName _) ?_
  rintro drawn uniqueName _ builds rfl
  have inRange := Nat.lt_of_lt_of_le inRange builds.size
  refine .bind (analyzeArities_tandem keeps related inRange) ?_
  rintro after _ _ _ ⟨items⟩
  exact .pure (.of_twins (.function name uniqueName items) _ _ _)

/-! ### Control flow -/

theorem analyzeDo_tandem (keeps : Keeps look self self')
    {args args' : List Form} (like : List.Forall₂ look.Like args args')
    (inRange : cx.frame < tree.frames.size) :
    Tandem host start tree (fun _ => Expr.Matches) (analyzeDo self cx args span)
      (analyzeDo self' cx args' span') := by
  have whole := analyzeSequence_tandem keeps like inRange
  cases like with
  | nil => exact analyzeConstant_tandem (.atom .nil)
  | cons first rest =>
    refine .bind whole ?_
    rintro after _ _ _ ⟨items⟩
    exact .pure (.of_twins (.sequence items) _ _ _)

theorem analyzeIf_tandem (keeps : Keeps look self self')
    {args args' : List Form} (like : List.Forall₂ look.Like args args')
    (inRange : cx.frame < tree.frames.size) :
    Tandem host start tree (fun _ => Expr.Matches) (analyzeIf self cx args span)
      (analyzeIf self' cx args' span') := by
  -- With and without an alternative, the parts are analyzed one after the other.
  have branches {condition condition' yes yes' : Form} {no no' : Option Form}
      (conditional : look.Like condition condition') (positive : look.Like yes yes')
      (negative : Option.Rel look.Like no no') :
      Tandem host start tree (fun _ => Expr.Matches)
        (do
          let condition ← self cx.operand condition
          let yes ← self cx yes
          let no ← no.mapM (self cx)
          return cx.expr (.branch condition yes no) span)
        (do
          let condition ← self' cx.operand condition'
          let yes ← self' cx yes'
          let no ← no'.mapM (self' cx)
          return (cx.expr (.branch condition yes no) span')) := by
    have operand : cx.operand.frame < tree.frames.size := inRange
    refine .bind (keeps operand conditional) fun decided _ _ first test => ?_
    have inRange := Nat.lt_of_lt_of_le inRange first.size
    refine .bind (keeps inRange positive) fun taken _ _ second value => ?_
    have inRange := Nat.lt_of_lt_of_le inRange second.size
    refine .bind (mapM_tandem keeps negative inRange) ?_
    rintro after _ _ _ ⟨other⟩
    exact .pure (.of_twins (.branch ⟨_, _, test⟩ ⟨_, _, value⟩ other) _ _ _)
  rcases like with _ | ⟨condition, _ | ⟨yes, _ | ⟨no, _ | ⟨_, _⟩⟩⟩⟩
  · exact .refuse_bind
  · exact .refuse_bind
  · exact branches condition yes .none
  · exact branches condition yes (.some no)
  · exact .refuse_bind

theorem analyzeQuote_tandem {args args' : List Form}
    (like : List.Forall₂ look.Like args args') :
    Tandem host start tree (fun _ => Expr.Matches) (analyzeQuote ⟨host, config⟩ cx args span)
      (analyzeQuote ⟨host, config⟩ cx args' span') := by
  rcases like with _ | ⟨form, _ | ⟨_, _⟩⟩
  · exact .refuse _ _
  · exact analyzeQuoted_tandem form
  · exact .refuse _ _

theorem analyzeVar_tandem {args args' : List Form}
    (like : List.Forall₂ look.Like args args') :
    Tandem host start tree (fun _ => Expr.Matches) (analyzeVar ⟨host, config⟩ cx args span)
      (analyzeVar ⟨host, config⟩ cx args' span') := by
  rcases like with _ | ⟨form, _ | ⟨_, _⟩⟩
  · exact .refuse _ _
  · cases look.parts form with
    | seq => exact .refuse _ _
    | map => exact .refuse _ _
    | atom value =>
      cases value with
      | symbol symbol =>
        refine .bind (.askHost _) ?_
        rintro asked var _ _ ⟨rfl, rfl⟩
        cases var with
        | some var =>
          refine .bind (.liftVar var.name) ?_
          rintro after lifted _ _ rfl
          exact .pure (.of_twins (.varObject lifted) _ _ _)
        | none => exact .bind (.askHost _) fun _ _ _ _ _ => .refuse _ _
      | _ => exact .refuse _ _
  · simp only [analyzeVar]
    exact .refuse _ _

theorem analyzeThrow_tandem (keeps : Keeps look self self')
    {args args' : List Form} (like : List.Forall₂ look.Like args args')
    (inRange : cx.operand.frame < tree.frames.size) :
    Tandem host start tree (fun _ => Expr.Matches) (analyzeThrow self cx args span)
      (analyzeThrow self' cx args' span') := by
  rcases like with _ | ⟨form, _ | ⟨_, _⟩⟩
  · exact .refuse _ _
  · refine .bind (keeps inRange form) fun _ _ _ _ held => ?_
    exact .pure (.of_twins (.throwing ⟨_, _, held⟩) _ _ _)
  · exact .refuse _ _

theorem analyzeCatch_tandem (keeps : Keeps look self self')
    {items items' : List Form} {clause clause' : Form} (like : List.Forall₂ look.Like items items')
    (inRange : cx.frame < tree.frames.size) :
    Tandem host start tree (fun _ => Read Handler.mapBody) (analyzeCatch self cx items clause)
      (analyzeCatch self' cx items' clause') := by
  refine .bind (.settle (look.catchParts like)) ?_
  rintro settled parts parts' _ ⟨rfl, found, types, names, bodies⟩
  rw [← types, ← names]
  refine .bind (.openFrame _ inRange) ?_
  rintro opened frame _ _ ⟨rfl, inner, _⟩
  refine .bind (.bindLocal (catchName_plain found) .none) ?_
  rintro bound binding _ builds rfl
  have body : (cx.inFrame frame).frame < bound.frames.size :=
    Nat.lt_of_lt_of_le inner builds.size
  refine .bind (analyzeBody_tandem keeps bodies body) fun after _ _ _ held => ?_
  exact .pure (.mk (Handler.mk parts.exceptionType binding frame (Twin.mk _ _ held)))

theorem analyzeFinally_tandem (keeps : Keeps look self self')
    {items items' : List Form} (like : List.Forall₂ look.Like items items')
    (inRange : cx.frame < tree.frames.size) :
    Tandem host start tree (fun _ => Expr.Matches) (analyzeFinally self cx items span)
      (analyzeFinally self' cx items' span') := by
  refine .bind (.openFrame _ inRange) ?_
  rintro opened frame _ _ ⟨rfl, inner, _⟩
  have body : (cx.statement.inFrame frame).frame < opened.frames.size := inner
  exact analyzeBody_tandem keeps (forall₂_head_tail like).2 body

theorem analyzeTry_tandem (keeps : Keeps look self self')
    {args args' : List Form} (like : List.Forall₂ look.Like args args')
    (inRange : cx.frame < tree.frames.size) :
    Tandem host start tree (fun _ => Expr.Matches) (analyzeTry self cx args span)
      (analyzeTry self' cx args' span') := by
  refine .bind (.settle (look.tryParts like)) ?_
  rintro settled parts parts' _ ⟨rfl, _, bodies, handlers, cleanups⟩
  refine .bind (.openFrame _ inRange) ?_
  rintro opened frame _ first ⟨rfl, inner, _⟩
  have body : (cx.inFrame frame).frame < opened.frames.size := inner
  refine .bind (analyzeBody_tandem keeps bodies body) fun guarded _ _ second held => ?_
  -- The clauses stand outside the frame of the body, where the `try` itself stands.
  have inRange := Nat.lt_of_lt_of_le inRange (first.trans second).size
  have handling : Tandem host start guarded (fun _ => Read fun f => Option.map (Handler.mapBody f))
      (parts.handler.mapM fun handler => analyzeCatch self cx handler.1 handler.2)
      (parts'.handler.mapM fun handler =>
        analyzeCatch self' cx handler.1 handler.2) := by
    generalize parts.handler = handler, parts'.handler = handler' at handlers
    cases handlers with
    | none => exact .pure (.mk none)
    | some clauses =>
      refine .bind (analyzeCatch_tandem keeps clauses inRange) ?_
      rintro after _ _ _ ⟨handler⟩
      exact .pure (.mk (some handler))
  refine .bind handling ?_
  rintro handled _ _ third ⟨handler⟩
  have inRange := Nat.lt_of_lt_of_le inRange third.size
  have cleaning : Tandem host start handled (fun _ => Read Option.map)
      (parts.cleanup.mapM fun items => analyzeFinally self cx items span)
      (parts'.cleanup.mapM fun items =>
        analyzeFinally self' cx items span') := by
    generalize parts.cleanup = cleanup, parts'.cleanup = cleanup' at cleanups
    cases cleanups with
    | none => exact .pure (.mk none)
    | some clauses =>
      refine .bind (analyzeFinally_tandem keeps clauses inRange) fun _ _ _ _ held => ?_
      exact .pure (.mk (some (Twin.mk _ _ held)))
  refine .bind cleaning ?_
  rintro after _ _ _ ⟨cleanup⟩
  exact .pure (.of_twins (.guarded ⟨_, _, held⟩ frame handler cleanup) _ _ _)

theorem analyzeBranches_tandem (keeps : Keeps look self self')
    {entries entries' : List (Form × Form)} (like : List.Forall₂ (Paired look.Like) entries entries')
    (inRange : cx.frame < tree.frames.size) :
    Tandem host start tree (fun _ => Read fun f => List.map (Prod.map id f))
      (analyzeBranches self cx entries)
      (analyzeBranches self' cx entries') := by
  induction like generalizing tree with
  | nil => exact .pure (.mk [])
  | cons first rest ih =>
    obtain ⟨keys, values⟩ := first
    refine .bind (.settle (look.caseInteger keys)) ?_
    rintro settled key _ _ ⟨rfl, _, rfl⟩
    refine .bind (keeps inRange values) fun between _ _ builds held => ?_
    refine .bind (ih (Nat.lt_of_lt_of_le inRange builds.size)) ?_
    rintro after _ _ _ ⟨items⟩
    exact .pure (.mk ((key, ⟨_, _, held⟩) :: items))

theorem analyzeCase_tandem (keeps : Keeps look self self')
    {args args' : List Form} (like : List.Forall₂ look.Like args args')
    (inRange : cx.frame < tree.frames.size) :
    Tandem host start tree (fun _ => Expr.Matches) (analyzeCase self cx args span)
      (analyzeCase self' cx args' span') := by
  refine .bind (.settle (look.caseParts like)) ?_
  rintro settled parts parts' _ ⟨rfl, _, values, shifts, masks, fallbacks, entries⟩
  rw [← shifts, ← masks]
  have operand : cx.operand.frame < settled.frames.size := inRange
  refine .bind (keeps operand values) fun valued _ _ first value => ?_
  have inRange := Nat.lt_of_lt_of_le inRange first.size
  refine .bind (analyzeBranches_tandem keeps entries inRange) ?_
  rintro branched _ _ second ⟨items⟩
  have inRange := Nat.lt_of_lt_of_le inRange second.size
  refine .bind (keeps inRange fallbacks) fun after _ _ _ fallback => ?_
  exact .pure (.of_twins (.dispatch ⟨_, _, value⟩ parts.shift parts.mask items ⟨_, _, fallback⟩) _ _ _)

theorem analyzeRecur_tandem (keeps : Keeps look self self')
    {args args' : List Form} (like : List.Forall₂ look.Like args args')
    (inRange : cx.frame < tree.frames.size) :
    Tandem host start tree (fun _ => Expr.Matches) (analyzeRecur self cx args span)
      (analyzeRecur self' cx args' span') := by
  unfold analyzeRecur
  dsimp only
  split
  · exact .refuse_bind
  · -- The target is found by the frames above this one, which are of one kind in both trees.
    refine .bind (.readTree fun second matching => matching.lineage_eq cx.frame) ?_
    rintro asked lineage _ _ ⟨rfl, _, rfl⟩
    cases recurTarget lineage with
    | error fault => exact .refuse_bind
    | ok aimed =>
      obtain ⟨target, expected⟩ := aimed
      change Tandem host start asked _ (if args.length ≠ expected then _ else _)
        (if args'.length ≠ expected then _ else _)
      rw [like.length_eq]
      split
      · exact .refuse_bind
      · cases target with
        | loop frame =>
          have operand : (cx.operandAs false).frame < asked.frames.size := inRange
          refine .bind (analyzeOperands_tandem keeps like operand) ?_
          rintro after _ _ _ ⟨items⟩
          exact .pure (.of_twins (.recur items (.loop frame)) _ _ _)
        | function frame =>
          have operand : cx.operand.frame < asked.frames.size := inRange
          refine .bind (analyzeOperands_tandem keeps like operand) ?_
          rintro between _ _ _ ⟨items⟩
          refine .bind (.updateFunction FnContext.markTail_notes) fun after _ _ _ _ => ?_
          exact .pure (.of_twins (.recur items (.function frame)) _ _ _)

/-! ### Native code -/

theorem readInterpolation_tandem {whole : String} (text : String)
    (like : look.Like (.atom (.string whole) span) (.atom (.string whole) span')) :
    Tandem host start tree (fun after form form' => after = tree ∧ look.Like form form')
      (readInterpolation ⟨host, config⟩ text span) (readInterpolation ⟨host, config⟩ text span') := by
  refine .bind (.tryHost (fun _ reached => look.read text reached like) (fun _ _ _ => .read)
    fun _ _ _ => .unread) ?_
  rintro asked answer answer' _ ⟨rfl, answers⟩
  refine .bind (.settle answers) ?_
  rintro settled forms forms' _ ⟨rfl, _, related⟩
  rcases related with _ | ⟨form, _ | ⟨_, _⟩⟩
  · exact .refuse _ _
  · exact .pure ⟨rfl, form⟩
  · exact .refuse _ _

theorem analyzePieces_tandem (keeps : Keeps look self self') (pieces : List Piece)
    {whole : String} (texts : look.Like (.atom (.string whole) span) (.atom (.string whole) span'))
    (inRange : cx.operand.frame < tree.frames.size) :
    Tandem host start tree (fun _ => Read fun f => List.map (Chunk.mapExpr f))
      (analyzePieces ⟨host, config⟩ self cx span pieces)
      (analyzePieces ⟨host, config⟩ self' cx span' pieces) := by
  induction pieces generalizing tree with
  | nil => exact .pure (.mk [])
  | cons piece pieces ih =>
    cases piece with
    | code text =>
      refine .bind (ih inRange) ?_
      rintro after _ _ _ ⟨items⟩
      exact .pure (.mk (.code text :: items))
    | interpolation text =>
      refine .bind (readInterpolation_tandem text texts) ?_
      rintro asked form form' _ ⟨rfl, like⟩
      refine .bind (keeps inRange like) fun between _ _ builds held => ?_
      refine .bind (ih (Nat.lt_of_lt_of_le inRange builds.size)) ?_
      rintro after _ _ _ ⟨items⟩
      exact .pure (.mk (.expr (Twin.mk _ _ held) :: items))

theorem analyzeNative_tandem (keeps : Keeps look self self')
    {args args' : List Form} (like : List.Forall₂ look.Like args args')
    (inRange : cx.operand.frame < tree.frames.size) :
    Tandem host start tree (fun _ => Expr.Matches) (analyzeNative ⟨host, config⟩ self cx args span)
      (analyzeNative ⟨host, config⟩ self' cx args' span') := by
  rcases like with _ | ⟨form, _ | ⟨_, _⟩⟩
  · exact .refuse _ _
  · have texts := form
    cases look.parts form with
    | seq => exact .refuse _ _
    | map => exact .refuse _ _
    | atom value =>
      cases value with
      | string text =>
        -- Forms that are alike hold one text, so both are cut into the same pieces.
        simp only [analyzeNative]
        cases Piece.split? text with
        | none => exact .refuse _ _
        | some pieces =>
          refine .bind (analyzePieces_tandem keeps pieces texts inRange) ?_
          rintro after _ _ _ ⟨items⟩
          exact .pure (.of_twins (.native items) _ _ _)
      | _ => exact .refuse _ _
  · simp only [analyzeNative]
    exact .refuse _ _

/-! ### Forms -/

theorem analyzeSpecial_tandem (keeps : Keeps look self self') (special : Special)
    {args args' : List Form} (like : List.Forall₂ look.Like args args')
    (inRange : cx.frame < tree.frames.size) :
    Tandem host start tree (fun _ => Expr.Matches)
      (analyzeSpecial ⟨host, config⟩ self cx special args span)
      (analyzeSpecial ⟨host, config⟩ self' cx special args' span') := by
  cases special with
  | define => exact analyzeDef_tandem keeps like inRange
  | function => exact analyzeFunction_tandem keeps like inRange
  | lets => exact analyzeLet_tandem keeps like inRange
  | loop => exact analyzeLet_tandem keeps like inRange
  | letfns => exact analyzeLetfn_tandem keeps like inRange
  | sequence => exact analyzeDo_tandem keeps like inRange
  | branch => exact analyzeIf_tandem keeps like inRange
  | quotation => exact analyzeQuote_tandem like
  | varObject => exact analyzeVar_tandem like
  | throwing => exact analyzeThrow_tandem keeps like inRange
  | guarded => exact analyzeTry_tandem keeps like inRange
  | dispatch => exact analyzeCase_tandem keeps like inRange
  | recur => exact analyzeRecur_tandem keeps like inRange
  | native => exact analyzeNative_tandem keeps like inRange

theorem analyzeList_tandem (keeps : Keeps look self self') {head head' : Form}
    {args args' : List Form} (heads : look.Like head head')
    (like : List.Forall₂ look.Like args args')
    (calls : look.Like (.list (head :: args) span) (.list (head' :: args') span'))
    (inRange : cx.frame < tree.frames.size) :
    Tandem host start tree (fun _ => Expr.Matches)
      (analyzeList ⟨host, config⟩ self cx head args span)
      (analyzeList ⟨host, config⟩ self' cx head' args' span') := by
  unfold analyzeList
  rw [look.symbol?_eq heads]
  split
  · exact analyzeSpecial_tandem keeps _ like inRange
  · exact analyzeApplication_tandem keeps heads like calls inRange

/-- One step of two analyses goes on in tandem if the analyses of other forms do. -/
theorem analyzeStep_tandem (config : Config) (keeps : Keeps look self self') :
    Keeps look (analyzeStep ⟨host, config⟩ self) (analyzeStep ⟨host, config⟩ self') := by
  intro tree cx form form' inRange like
  have same := look.isConstant_eq like
  cases look.parts like with
  | atom value span span' =>
    cases value with
    | symbol name => exact analyzeSymbol_tandem name
    | _ => exact analyzeQuoted_tandem like
  | seq shape span span' parts =>
    have operand : cx.operand.frame < tree.frames.size := inRange
    cases shape with
    | list =>
      cases parts with
      | nil => exact analyzeQuoted_tandem like
      | cons heads args => exact analyzeList_tandem keeps heads args like inRange
    | vector =>
      simp only [analyzeStep, same]
      split
      · exact analyzeQuoted_tandem like
      · refine .bind (analyzeOperands_tandem keeps parts operand) ?_
        rintro after _ _ _ ⟨items⟩
        exact .pure (.of_twins (.vector items) _ _ _)
    | set =>
      simp only [analyzeStep, same]
      split
      · exact analyzeQuoted_tandem like
      · refine .bind (analyzeOperands_tandem keeps parts operand) ?_
        rintro after _ _ _ ⟨items⟩
        exact .pure (.of_twins (.set items) _ _ _)
  | map span span' parts =>
    have operand : cx.operand.frame < tree.frames.size := inRange
    simp only [analyzeStep, same]
    split
    · exact analyzeQuoted_tandem like
    · refine .bind (analyzeEntries_tandem keeps parts operand) ?_
      rintro after _ _ _ ⟨items⟩
      exact .pure (.of_twins (.map items) _ _ _)

/-- The analyses of forms that are alike go on in tandem. -/
theorem analyzeForm_tandem (config : Config) (depth : Nat) :
    Keeps look (analyzeForm ⟨host, config⟩ depth) (analyzeForm ⟨host, config⟩ depth) := by
  induction depth with
  | zero => exact fun _ _ => .throw _ _
  | succ depth ih => exact analyzeStep_tandem config ih

end LispScope
