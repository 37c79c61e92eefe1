import LispScope.Proofs.Growth

/-!
# The analysis enacts the script of its result

Main statement: `analyzeForm_enacts`. Whatever a form was and however often it was expanded, the
frames, bindings and names that its analysis leaves behind come about by carrying out the script of
the resulting expression. The proof follows the analysis: one lemma for each kind of form, under the
assumption that the analysis of the parts already enacts theirs.
-/
namespace LispScope

open AnalysisM

variable {σ : Type} {analyzer : Analyzer σ} {self : Recursion σ} {cx : Context}
  {before after : State σ} {span : Span} {expr : Expr}

/-- Every result of an analysis comes with the run of its script. -/
def Recursion.Enacting (self : Recursion σ) (config : Config) : Prop :=
  ∀ ⦃cx : Context⦄ ⦃form : Form⦄ ⦃before after : State σ⦄ ⦃expr : Expr⦄,
    self cx form before = .ok expr after →
      Enacts config cx.frame [.visit cx.place expr] before.store after.store

/-! ### Constants and names -/

theorem analyzeConstant_enacts {config : Config} {value : Datum}
    (run : analyzeConstant cx value span before = .ok expr after) :
    Enacts config cx.frame [.visit cx.place expr] before.store after.store := by
  unfold analyzeConstant at run
  split at run
  next lifting =>
    simp only [bind_ok, liftConstant_ok, pure_ok] at run
    obtain ⟨lifted, _, ⟨tree, names, entered, rfl⟩, rfl, rfl⟩ := run
    exact .visit ⟨rfl, trivial⟩ (.constant lifting entered) .done (.idle rfl) .done
  next plain =>
    rw [pure_ok] at run
    obtain ⟨rfl, rfl⟩ := run
    exact .visit ⟨rfl, trivial⟩ (.literal (by simpa using plain)) .done (.idle rfl) .done

theorem analyzeQuoted_enacts {config : Config} {form : Form}
    (run : analyzeQuoted analyzer cx form span before = .ok expr after) :
    Enacts config cx.frame [.visit cx.place expr] before.store after.store := by
  simp only [analyzeQuoted, bind_ok, runHost_ok] at run
  obtain ⟨value, _, ⟨world, _, rfl⟩, run⟩ := run
  change Enacts config cx.frame _ (State.store { before with world }) after.store
  exact analyzeConstant_enacts run

theorem analyzeSymbol_enacts {config : Config} {symbol : Symbol}
    (run : analyzeSymbol analyzer cx symbol span before = .ok expr after) :
    Enacts config cx.frame [.visit cx.place expr] before.store after.store := by
  simp only [analyzeSymbol, bind_ok, resolve_ok] at run
  obtain ⟨found, _, ⟨⟨lineage, path, resolved⟩, rfl⟩, run⟩ := run
  split at run
  -- A local name, an enclosing function, or else a var.
  next source crossed =>
    simp only [bind_ok, useBinding_ok, pure_ok] at run
    obtain ⟨binding, _, ⟨between, tree, captured, noted, rfl⟩, rfl, rfl⟩ := run
    exact .visit ⟨rfl, rfl⟩ (.localRef ⟨lineage, path, resolved⟩ captured noted) .done
      (.idle rfl) .done
  next target crossed =>
    simp only [bind_ok, useSelf_ok, pure_ok] at run
    obtain ⟨_, _, ⟨tree, taken, rfl⟩, rfl, rfl⟩ := run
    exact .visit ⟨rfl, trivial⟩ (.selfRef ⟨lineage, path, resolved⟩ taken) .done (.idle rfl) .done
  next =>
    simp only [findVar, bind_ok, askHost_ok] at run
    obtain ⟨found, _, ⟨_, rfl⟩, run⟩ := run
    split at run
    next var =>
      simp only [bind_ok, liftVar_ok, pure_ok] at run
      obtain ⟨lifted, _, ⟨tree, names, entered, rfl⟩, rfl, rfl⟩ := run
      exact .visit ⟨rfl, trivial⟩ (.var rfl entered) .done (.idle rfl) .done
    next => split at run <;> simp [refuse_ok] at run

/-! ### Names that can be bound -/

/-- A name that is bound without a value. -/
theorem bindLocal_bare {config : Config} {frame : FrameId} {name : Symbol} {binding : BindingId}
    (plain : name.isQualified = false)
    (run : bindLocal span frame name none true before = .ok binding after) :
    Enacts config frame [.bind binding .bare] before.store after.store := by
  simp only [bindLocal, changeTree_ok] at run
  obtain ⟨tree, bound, rfl⟩ := run
  exact .bind (.bare plain bound) .done

theorem localName_plain {form : Form} {name : Symbol} (named : form.localName? = some name) :
    name.isQualified = false := by
  simp only [Form.localName?, Option.filter_eq_some_iff] at named
  simpa using named.2

theorem bindingName_plain {binder : Binder} {form : Form} {name : Symbol}
    (named : bindingName binder form = .ok name) : name.isQualified = false := by
  unfold bindingName at named
  cases found : form.localName? with
  | none => simp [found, throw, throwThe, MonadExceptOf.throw] at named
  | some bound =>
    simp only [found, pure, Except.pure, Except.ok.injEq] at named
    exact named ▸ localName_plain found

theorem bindFunctions_enacts {config : Config} {frame : FrameId} {forms : List (Form × Form)}
    {pairs : List (BindingId × Form)}
    (run : bindFunctions frame forms before = .ok pairs after) :
    Enacts config frame (pairs.map fun pair => .bind pair.1 .bare) before.store after.store := by
  induction forms generalizing before pairs with
  | nil =>
    rw [bindFunctions, pure_ok] at run
    obtain ⟨rfl, rfl⟩ := run
    exact .done
  | cons form forms ih =>
    obtain ⟨nameForm, form⟩ := form
    simp only [bindFunctions, bind_ok, settle_ok] at run
    obtain ⟨name, _, ⟨named, rfl⟩, run⟩ := run
    split at run
    next => simp [bind_ok, refuse_ok] at run
    next =>
      simp only [bind_ok, pure_ok] at run
      obtain ⟨binding, _, bound, rest, _, others, rfl, rfl⟩ := run
      exact (bindLocal_bare (bindingName_plain named) bound).append (ih others)

theorem bindParams_enacts {config : Config} {frame : FrameId} {names : List Symbol}
    {bindings : List BindingId} (plain : ∀ name ∈ names, name.isQualified = false)
    (run : bindParams span frame names before = .ok bindings after) :
    Enacts config frame (bindings.map (.bind · .bare)) before.store after.store ∧
      bindings.length = names.length := by
  induction names generalizing before bindings with
  | nil =>
    rw [bindParams, pure_ok] at run
    obtain ⟨rfl, rfl⟩ := run
    exact ⟨.done, rfl⟩
  | cons name names ih =>
    simp only [bindParams, bind_ok, pure_ok] at run
    obtain ⟨binding, _, bound, rest, _, others, rfl, rfl⟩ := run
    obtain ⟨follows, sameLength⟩ := ih (fun other member => plain other (.tail _ member)) others
    exact ⟨(bindLocal_bare (plain name (.head _)) bound).append follows, by simpa using sameLength⟩

/-- Parameters are unqualified. -/
theorem ofItems_plain {items : List Form} {params : Params}
    (parsed : Params.ofItems items = .ok params) : ∀ name ∈ params.names, name.isQualified = false := by
  induction items generalizing params with
  | nil =>
    cases parsed
    simp [Params.names]
  | cons item items ih =>
    unfold Params.ofItems at parsed
    split at parsed
    next =>
      split at parsed
      next => cases parsed
      next form =>
        cases named : Params.restName? form with
        | none => simp [named, throw, throwThe, MonadExceptOf.throw] at parsed
        | some name =>
          simp only [named, pure, Except.pure, Except.ok.injEq] at parsed
          subst parsed
          simp only [Params.restName?, Option.filter_eq_some_iff] at named
          simpa [Params.names] using localName_plain named.1
      next => cases parsed
    next =>
      cases named : item.localName? with
      | none => simp [named, throw, throwThe, MonadExceptOf.throw] at parsed
      | some name =>
        cases rest : Params.ofItems items with
        | error diagnostic => simp [named, rest, bind, Except.bind] at parsed
        | ok others =>
          simp only [named, rest, bind, Except.bind, pure, Except.pure, Except.ok.injEq] at parsed
          subst parsed
          have plain := ih rest
          simp only [Params.names, List.cons_append, List.mem_cons, forall_eq_or_imp] at plain ⊢
          exact ⟨localName_plain named, plain⟩

theorem parse_plain {limit : Nat} {items : List Form} {params : Params}
    (parsed : Params.parse limit items span = .ok params) :
    ∀ name ∈ params.names, name.isQualified = false := by
  cases read : Params.ofItems items with
  | error diagnostic => simp [Params.parse, read, bind, Except.bind] at parsed
  | ok others =>
    simp only [Params.parse, read, bind, Except.bind] at parsed
    split at parsed
    next => cases parsed
    next =>
      cases parsed
      exact ofItems_plain read

theorem catchName_plain {items : List Form} {parts : CatchParts}
    (shaped : CatchParts.ofItems items span = .ok parts) : parts.name.isQualified = false := by
  unfold CatchParts.ofItems at shaped
  split at shaped
  next =>
    split at shaped
    next named =>
      cases shaped
      exact localName_plain named
    next => cases shaped
  next => cases shaped

theorem functionName_plain {args rest : List Form} {name : Option Symbol}
    (named : functionName args = .ok (name, rest)) :
    ∀ symbol ∈ name, symbol.isQualified = false := by
  unfold functionName at named
  split at named
  next symbol span others =>
    split at named
    next => cases named
    next plain =>
      cases named
      simpa using plain
  next =>
    cases named
    simp

/-! ### Bodies and operands -/

section Parts

variable {config : Config} (enacting : self.Enacting config)
include enacting

theorem analyzeSequence_enacts {forms : List Form} {exprs : List Expr}
    (run : analyzeSequence self cx forms before = .ok exprs after) :
    Enacts config cx.frame (sequenceScript cx.place exprs) before.store after.store ∧
      exprs.length = forms.length := by
  induction forms generalizing before exprs with
  | nil =>
    rw [analyzeSequence, pure_ok] at run
    obtain ⟨rfl, rfl⟩ := run
    exact ⟨.done, rfl⟩
  | cons form forms ih =>
    cases forms with
    | nil =>
      simp only [analyzeSequence, bind_ok, pure_ok] at run
      obtain ⟨last, _, analyzed, rfl, rfl⟩ := run
      exact ⟨enacting analyzed, rfl⟩
    | cons next forms =>
      simp only [analyzeSequence, bind_ok, pure_ok] at run
      obtain ⟨first, _, analyzed, rest, _, others, rfl, rfl⟩ := run
      obtain ⟨follows, sameLength⟩ := ih others
      -- The script tells the last expression apart, so it matters that others follow.
      cases rest with
      | nil => simp at sameLength
      | cons second rest =>
        exact ⟨(enacting analyzed).append follows, by simpa using sameLength⟩

theorem analyzeBody_enacts {body : List Form}
    (run : analyzeBody self cx body span before = .ok expr after) :
    Enacts config cx.frame [.visit cx.place expr] before.store after.store := by
  unfold analyzeBody at run
  split at run
  next => exact analyzeConstant_enacts run
  next only => exact enacting run
  next =>
    simp only [bind_ok, pure_ok] at run
    obtain ⟨exprs, _, analyzed, rfl, rfl⟩ := run
    exact .visit_idle rfl ⟨rfl, trivial⟩ (analyzeSequence_enacts enacting analyzed).1

theorem analyzeOperands_enacts {forms : List Form} {exprs : List Expr}
    (run : analyzeOperands self cx forms before = .ok exprs after) :
    Enacts config cx.frame (exprs.map (.visit cx.place)) before.store after.store ∧
      exprs.length = forms.length := by
  induction forms generalizing before exprs with
  | nil =>
    rw [analyzeOperands, pure_ok] at run
    obtain ⟨rfl, rfl⟩ := run
    exact ⟨.done, rfl⟩
  | cons form forms ih =>
    simp only [analyzeOperands, bind_ok, pure_ok] at run
    obtain ⟨first, _, analyzed, rest, _, others, rfl, rfl⟩ := run
    obtain ⟨follows, sameLength⟩ := ih others
    exact ⟨(enacting analyzed).append follows, by simpa using sameLength⟩

theorem analyzeEntries_enacts {forms : List (Form × Form)} {entries : List (Expr × Expr)}
    (run : analyzeEntries self cx forms before = .ok entries after) :
    Enacts config cx.frame ((Node.map entries).script cx.place) before.store after.store := by
  induction forms generalizing before entries with
  | nil =>
    rw [analyzeEntries, pure_ok] at run
    obtain ⟨rfl, rfl⟩ := run
    exact .done
  | cons form forms ih =>
    simp only [analyzeEntries, bind_ok, pure_ok] at run
    obtain ⟨key, _, keyed, value, _, valued, rest, _, others, rfl, rfl⟩ := run
    exact (enacting keyed).append ((enacting valued).append (ih others))

/-! ### Definitions, applications and native code -/

theorem mapM_enacts {form : Option Form} {value : Option Expr}
    (run : form.mapM (self cx) before = .ok value after) :
    Enacts config cx.frame (value.toList.map (.visit cx.place)) before.store after.store := by
  cases form with
  | none =>
    obtain ⟨rfl, rfl⟩ := pure_ok.mp run
    exact .done
  | some form =>
    simp only [Option.mapM_some, map_ok] at run
    obtain ⟨value, analyzed, rfl⟩ := run
    exact enacting analyzed

theorem analyzeDef_enacts {args : List Form}
    (run : analyzeDef analyzer self cx args span before = .ok expr after) :
    Enacts config cx.frame [.visit cx.place expr] before.store after.store := by
  simp only [analyzeDef, bind_ok, askHost_ok, settle_ok, runHost_ok, liftVar_ok, pure_ok] at run
  obtain ⟨_, _, ⟨_, rfl⟩, parts, _, ⟨_, rfl⟩, var, _, ⟨world, _, rfl⟩, run⟩ := run
  obtain ⟨lifted, _, ⟨tree, names, entered, rfl⟩, value, _, valued, rfl, rfl⟩ := run
  exact .visit ⟨rfl, trivial⟩ (.var rfl entered) (mapM_enacts enacting valued) (.idle rfl) .done

theorem analyzeCall_enacts {head : Form} {args : List Form}
    (operators : config = analyzer.config)
    (run : analyzeCall analyzer self cx head args span before = .ok expr after) :
    Enacts config cx.frame [.visit cx.place expr] before.store after.store := by
  simp only [analyzeCall, bind_ok, pure_ok] at run
  obtain ⟨head, _, headed, args, _, operands, rfl, rfl⟩ := run
  subst operators
  exact .visit_idle rfl ⟨rfl, rfl⟩
    ((enacting headed).append (analyzeOperands_enacts enacting operands).1)

theorem analyzeSelfCall_enacts {found : Found FrameId} {args : List Form} {name : Symbol}
    (refers : before.tree.Refers cx.frame name ⟨.self found.target, found.crossed⟩)
    (run : analyzeSelfCall self cx found args span before = .ok expr after) :
    Enacts config cx.frame [.visit cx.place expr] before.store after.store := by
  simp only [analyzeSelfCall, bind_ok, useSelf_ok, noteSelfCall_ok, pure_ok] at run
  obtain ⟨_, _, ⟨between, taken, rfl⟩, _, _, ⟨_, _, tree, _, _, marked, rfl⟩, args, _, operands, rfl,
    rfl⟩ := run
  exact .visit ⟨rfl, trivial⟩ (.selfCall refers taken marked)
    (analyzeOperands_enacts enacting operands).1 (.idle rfl) .done

theorem analyzeMacroCall_enacts {call : Form}
    (run : analyzeMacroCall analyzer self cx call before = .ok expr after) :
    Enacts config cx.frame [.visit cx.place expr] before.store after.store := by
  simp only [analyzeMacroCall, analyzeExpansion, bind_ok, pushExpansion_ok, finishing_ok, noting_ok,
    popExpansion_ok] at run
  obtain ⟨_, _, rfl, last, ⟨expansion, between, expanded, run⟩, rfl⟩ := run
  obtain ⟨sameTree, sameNames, _⟩ := tryHost_ok expanded
  -- Expanding changes the host and the stack, and the expansion takes the place of the call.
  have same : between.store = before.store := by
    rw [State.store, sameTree, sameNames, pushed_tree, pushed_names, State.store]
  rw [← same]
  cases expansion with
  | ok expansion =>
    have enacted := enacting run
    exact enacted
  | error cause => simp [throw_ok] at run

theorem analyzeApplication_enacts {head : Form} {args : List Form}
    (operators : config = analyzer.config)
    (run : analyzeApplication analyzer self cx head args span before = .ok expr after) :
    Enacts config cx.frame [.visit cx.place expr] before.store after.store := by
  unfold analyzeApplication at run
  cases headed : head.symbol? with
  | none =>
    simp only [headed] at run
    exact analyzeCall_enacts enacting operators run
  | some symbol =>
    simp only [headed, bind_ok, resolve_ok] at run
    obtain ⟨found, _, ⟨⟨lineage, path, resolved⟩, rfl⟩, run⟩ := run
    split at run
    next => exact analyzeCall_enacts enacting operators run
    next target crossed =>
      exact analyzeSelfCall_enacts enacting ⟨lineage, path, resolved⟩ run
    next =>
      simp only [findVar, bind_ok, askHost_ok] at run
      obtain ⟨found, _, ⟨_, rfl⟩, run⟩ := run
      split at run
      next => exact analyzeMacroCall_enacts enacting run
      next => exact analyzeCall_enacts enacting operators run

omit enacting in
theorem readInterpolation_ok {text : String} {form : Form}
    (run : readInterpolation analyzer text span before = .ok form after) :
    after.store = before.store := by
  simp only [readInterpolation, bind_ok, settle_ok] at run
  obtain ⟨answer, between, read, forms, _, ⟨_, rfl⟩, run⟩ := run
  -- Reading the text of an interpolation is left to the host.
  obtain ⟨sameTree, sameNames, _⟩ := tryHost_ok read
  split at run
  next =>
    rw [pure_ok] at run
    obtain ⟨_, rfl⟩ := run
    rw [State.store, sameTree, sameNames, State.store]
  next => simp [refuse_ok] at run

theorem analyzePieces_enacts {pieces : List Piece} {chunks : List (Chunk Expr)}
    (run : analyzePieces analyzer self cx span pieces before = .ok chunks after) :
    Enacts config cx.frame ((Node.native chunks).script cx.place) before.store after.store := by
  induction pieces generalizing before chunks with
  | nil =>
    rw [analyzePieces, pure_ok] at run
    obtain ⟨rfl, rfl⟩ := run
    exact .done
  | cons piece pieces ih =>
    cases piece with
    | code text =>
      simp only [analyzePieces, bind_ok, pure_ok] at run
      obtain ⟨rest, _, others, rfl, rfl⟩ := run
      have enacted := ih others
      exact enacted
    | interpolation text =>
      simp only [analyzePieces, bind_ok, pure_ok] at run
      obtain ⟨form, between, read, value, _, analyzed, rest, _, others, rfl, rfl⟩ := run
      rw [← readInterpolation_ok read]
      exact (enacting analyzed).append (ih others)

theorem analyzeNative_enacts {args : List Form}
    (run : analyzeNative analyzer self cx args span before = .ok expr after) :
    Enacts config cx.frame [.visit cx.place expr] before.store after.store := by
  unfold analyzeNative at run
  split at run
  next text textSpan =>
    cases split : Piece.split? text with
    | none => simp [split, refuse_ok] at run
    | some pieces =>
      simp only [split, bind_ok, pure_ok] at run
      obtain ⟨chunks, _, analyzed, rfl, rfl⟩ := run
      exact .visit_idle rfl ⟨rfl, trivial⟩ (analyzePieces_enacts enacting analyzed)
  next => simp [refuse_ok] at run
  next => simp [refuse_ok] at run

/-! ### Local names -/

theorem analyzePairs_enacts {isLoop : Bool} {forms : List (Form × Form)}
    {pairs : List (BindingId × Expr)}
    (run : analyzePairs self cx isLoop forms before = .ok pairs after) :
    Enacts config cx.frame (pairScript isLoop pairs) before.store after.store := by
  induction forms generalizing before pairs with
  | nil =>
    rw [analyzePairs, pure_ok] at run
    obtain ⟨rfl, rfl⟩ := run
    exact .done
  | cons form forms ih =>
    obtain ⟨nameForm, form⟩ := form
    simp only [analyzePairs, bindLocal, bind_ok, settle_ok, readTree_ok, changeTree_ok, pure_ok] at run
    obtain ⟨name, _, ⟨named, rfl⟩, initial, _, analyzed, unboxable, _, ⟨judged, rfl⟩, run⟩ := run
    obtain ⟨binding, _, ⟨tree, bound, rfl⟩, rest, _, others, rfl, rfl⟩ := run
    -- The value is judged when it is there, right before its name is bound.
    have binds := Binds.initial (bindingName_plain named) judged bound
    exact (enacting analyzed).append (.bind binds (ih others))

theorem analyzeLet_enacts {isLoop : Bool} {args : List Form}
    (run : analyzeLet self isLoop cx args span before = .ok expr after) :
    Enacts config cx.frame [.visit cx.place expr] before.store after.store := by
  simp only [analyzeLet, bind_ok, settle_ok, openFrame_ok] at run
  obtain ⟨forms, _, ⟨_, rfl⟩, frame, _, ⟨tree, opened, rfl⟩, pairs, between, paired, run⟩ := run
  have follows := analyzePairs_enacts enacting paired
  cases isLoop with
  | false =>
    simp only [Bool.false_eq_true, if_false, bind_ok, pure_ok] at run
    obtain ⟨body, _, bodied, rfl, rfl⟩ := run
    have ending : Enacts config frame _ _ _ := analyzeBody_enacts enacting bodied
    have entered := FrameTree.enter_of_openFrame .lets opened rfl
    exact .visit_idle rfl ⟨rfl, trivial⟩
      (.block entered rfl (Enacts.append (follows.append .done) ending) .done)
  | true =>
    simp only [if_true, bind_ok, fillLoop_ok, pure_ok] at run
    obtain ⟨_, _, ⟨filled, counted, rfl⟩, body, _, bodied, rfl, rfl⟩ := run
    have ending : Enacts config frame _ _ _ := analyzeBody_enacts enacting bodied
    -- The frame is that of a loop, and the initial values have left its number of names open.
    have entered := FrameTree.enter_of_openFrame .loop opened rfl
    have fresh := (FrameTree.enter_some entered).2.2.2.1
    obtain ⟨held, found, unset⟩ := follows.counted fresh
    rw [countedBy_pairs] at unset
    obtain ⟨_, found', grown⟩ := follows.grows.frames _ _ fresh
    cases found.symm.trans found'
    have counts : Enacts config frame (countScript true frame pairs.length) between.store _ :=
      .count (.filled found grown.kind unset counted) .done
    exact .visit_idle rfl ⟨rfl, trivial⟩
      (.block entered rfl (Enacts.append (follows.append counts) ending) .done)

theorem analyzeFunctions_enacts {forms : List (BindingId × Form)}
    {pairs : List (BindingId × Expr)}
    (run : analyzeFunctions self cx forms before = .ok pairs after) :
    Enacts config cx.frame (pairs.map fun pair => .visit cx.place pair.2) before.store after.store ∧
      pairs.map Prod.fst = forms.map Prod.fst := by
  induction forms generalizing before pairs with
  | nil =>
    rw [analyzeFunctions, pure_ok] at run
    obtain ⟨rfl, rfl⟩ := run
    exact ⟨.done, rfl⟩
  | cons form forms ih =>
    simp only [analyzeFunctions, bind_ok, pure_ok] at run
    obtain ⟨value, _, analyzed, rest, _, others, rfl, rfl⟩ := run
    obtain ⟨follows, sameNames⟩ := ih others
    exact ⟨(enacting analyzed).append follows, by simp [sameNames]⟩

theorem analyzeLetfn_enacts {args : List Form}
    (run : analyzeLetfn self cx args span before = .ok expr after) :
    Enacts config cx.frame [.visit cx.place expr] before.store after.store := by
  simp only [analyzeLetfn, bind_ok, settle_ok, openFrame_ok, pure_ok] at run
  obtain ⟨forms, _, ⟨_, rfl⟩, frame, _, ⟨tree, opened, rfl⟩, bound, _, binding, run⟩ := run
  obtain ⟨pairs, _, analyzed, body, _, bodied, rfl, rfl⟩ := run
  obtain ⟨follows, sameNames⟩ := analyzeFunctions_enacts enacting analyzed
  have binds : Enacts config frame _ _ _ := bindFunctions_enacts binding
  -- All names are bound before the first function is analyzed.
  have named : bound.map (fun pair => Step.bind pair.1 .bare) =
      pairs.map fun pair => Step.bind pair.1 .bare := by
    simpa [Function.comp_def] using congrArg (List.map (Step.bind · .bare)) sameNames.symm
  rw [named] at binds
  have inside := Enacts.append (Enacts.append binds follows) (analyzeBody_enacts enacting bodied)
  have entered := FrameTree.enter_of_openFrame .letfns opened rfl
  exact .visit_idle rfl ⟨rfl, trivial⟩ (.block entered rfl inside .done)

/-! ### Functions -/

theorem analyzeArity_enacts {name : Option Symbol} {uniqueName : String} {form : ArityForm}
    {arity : Arity Expr}
    (run : analyzeArity analyzer self cx name uniqueName form before = .ok arity after) :
    Enacts config cx.frame [arity.block name uniqueName] before.store after.store := by
  simp only [analyzeArity, bind_ok, settle_ok, openFrame_ok, fillFunction_ok, pure_ok] at run
  obtain ⟨params, _, ⟨parsed, rfl⟩, frame, _, ⟨tree, opened, rfl⟩, run⟩ := run
  obtain ⟨_, _, ⟨filled, known, rfl⟩, bindings, _, bound, body, _, bodied, rfl, rfl⟩ := run
  have opened := FrameTree.enter_of_fillFunction opened known
  obtain ⟨binds, sameLength⟩ := bindParams_enacts (parse_plain parsed) bound
  rw [← sameLength] at opened
  have ending : Enacts config frame _ _ _ := analyzeBody_enacts enacting bodied
  exact .block opened ⟨rfl, rfl, rfl⟩ (Enacts.append binds ending) .done

theorem analyzeArities_enacts {name : Option Symbol} {uniqueName : String}
    {earlier : List Signature} {forms : List ArityForm} {arities : List (Arity Expr)}
    (run : analyzeArities analyzer self cx name uniqueName earlier forms before =
      .ok arities after) :
    Enacts config cx.frame (arities.map (Arity.block name uniqueName)) before.store after.store := by
  induction forms generalizing before arities earlier with
  | nil =>
    rw [analyzeArities, pure_ok] at run
    obtain ⟨rfl, rfl⟩ := run
    exact .done
  | cons form forms ih =>
    simp only [analyzeArities, bind_ok] at run
    obtain ⟨arity, between, analyzed, run⟩ := run
    cases clash : Signature.conflict? earlier arity.signature with
    | some fault => simp [clash, bind_ok, refuse_ok] at run
    | none =>
      simp only [clash, bind_ok, pure_ok] at run
      obtain ⟨rest, _, others, rfl, rfl⟩ := run
      exact (analyzeArity_enacts enacting analyzed).append (ih others)

theorem analyzeFunction_enacts {args : List Form}
    (run : analyzeFunction analyzer self cx args span before = .ok expr after) :
    Enacts config cx.frame [.visit cx.place expr] before.store after.store := by
  simp only [analyzeFunction, bind_ok, settle_ok, freshName_ok, pure_ok] at run
  obtain ⟨⟨name, rest⟩, _, ⟨named, rfl⟩, forms, _, ⟨_, rfl⟩, uniqueName, _, drawing, run⟩ := run
  obtain ⟨names, drawn, rfl⟩ := drawing
  obtain ⟨arities, _, analyzed, rfl, rfl⟩ := run
  have unambiguous := ((analyzeArities_ok_iff Signature.unambiguous_nil).mp analyzed).2
  exact .visit ⟨rfl, unambiguous⟩ (.function (functionName_plain named) drawn)
    (analyzeArities_enacts enacting analyzed) (.idle rfl) .done

/-! ### Control flow -/

theorem analyzeDo_enacts {args : List Form}
    (run : analyzeDo self cx args span before = .ok expr after) :
    Enacts config cx.frame [.visit cx.place expr] before.store after.store := by
  unfold analyzeDo at run
  split at run
  next => exact analyzeConstant_enacts run
  next =>
    simp only [bind_ok, pure_ok] at run
    obtain ⟨exprs, _, analyzed, rfl, rfl⟩ := run
    exact .visit_idle rfl ⟨rfl, trivial⟩ (analyzeSequence_enacts enacting analyzed).1

theorem analyzeIf_enacts {args : List Form}
    (run : analyzeIf self cx args span before = .ok expr after) :
    Enacts config cx.frame [.visit cx.place expr] before.store after.store := by
  unfold analyzeIf at run
  split at run
  -- With two or three arguments the analysis goes on in the same way.
  case h_3 => simp [bind_ok, refuse_ok] at run
  all_goals
    simp only [bind_ok, pure_ok] at run
    obtain ⟨_, _, ⟨rfl, rfl⟩, condition, _, tested, yes, _, followed, no, _, otherwise, rfl, rfl⟩ := run
    exact .visit_idle rfl ⟨rfl, trivial⟩
      ((enacting tested).append ((enacting followed).append (mapM_enacts enacting otherwise)))

theorem analyzeThrow_enacts {args : List Form}
    (run : analyzeThrow self cx args span before = .ok expr after) :
    Enacts config cx.frame [.visit cx.place expr] before.store after.store := by
  unfold analyzeThrow at run
  split at run
  next form =>
    simp only [bind_ok, pure_ok] at run
    obtain ⟨value, _, analyzed, rfl, rfl⟩ := run
    exact .visit_idle rfl ⟨rfl, trivial⟩ (enacting analyzed)
  next => simp [refuse_ok] at run

theorem analyzeCatch_enacts {items : List Form} {clause : Form} {handler : Handler Expr}
    (run : analyzeCatch self cx items clause before = .ok handler after) :
    Enacts config cx.frame [handler.block cx.place] before.store after.store := by
  simp only [analyzeCatch, bind_ok, settle_ok, openFrame_ok, pure_ok] at run
  obtain ⟨parts, _, ⟨shaped, rfl⟩, frame, _, ⟨tree, opened, rfl⟩, binding, _, bound, run⟩ := run
  obtain ⟨body, _, bodied, rfl, rfl⟩ := run
  have ending : Enacts config frame _ _ _ := analyzeBody_enacts enacting bodied
  have binds : Enacts config frame _ _ _ := bindLocal_bare (catchName_plain shaped) bound
  have entered := FrameTree.enter_of_openFrame .handler opened rfl
  exact .block entered rfl (Enacts.append binds ending) .done

theorem analyzeFinally_enacts {items : List Form}
    (run : analyzeFinally self cx items span before = .ok expr after) :
    Enacts config cx.frame [.block .cleanup none [.visit .statement expr]] before.store
      after.store := by
  simp only [analyzeFinally, bind_ok, openFrame_ok] at run
  obtain ⟨frame, _, ⟨tree, opened, rfl⟩, run⟩ := run
  have inside : Enacts config frame _ _ _ := analyzeBody_enacts enacting run
  have entered := FrameTree.enter_of_openFrame .cleanup opened rfl
  exact .block entered rfl inside .done

theorem analyzeTry_enacts {args : List Form}
    (run : analyzeTry self cx args span before = .ok expr after) :
    Enacts config cx.frame [.visit cx.place expr] before.store after.store := by
  simp only [analyzeTry, bind_ok, settle_ok, openFrame_ok, pure_ok] at run
  obtain ⟨⟨forms, clause, items⟩, _, ⟨_, rfl⟩, frame, _, ⟨tree, opened, rfl⟩, run⟩ := run
  obtain ⟨body, between, bodied, handler, middle, handled, cleanup, last, cleaned, rfl, rfl⟩ := run
  have inside : Enacts config frame _ _ _ := analyzeBody_enacts enacting bodied
  -- Handler and cleanup stand beside the frame of the body, not inside of it.
  have handles : Enacts config cx.frame (handler.toList.map (Handler.block cx.place)) between.store
      middle.store := by
    cases clause with
    | none =>
      obtain ⟨rfl, rfl⟩ := pure_ok.mp handled
      exact .done
    | some clause =>
      simp only [Option.mapM_some, map_ok] at handled
      obtain ⟨handler, handled, rfl⟩ := handled
      exact analyzeCatch_enacts enacting handled
  have cleans : Enacts config cx.frame
      (cleanup.toList.map fun body => .block .cleanup none [.visit .statement body])
      middle.store last.store := by
    cases items with
    | none =>
      obtain ⟨rfl, rfl⟩ := pure_ok.mp cleaned
      exact .done
    | some items =>
      simp only [Option.mapM_some, map_ok] at cleaned
      obtain ⟨cleanup, cleaned, rfl⟩ := cleaned
      exact analyzeFinally_enacts enacting cleaned
  have entered := FrameTree.enter_of_openFrame .guarded opened rfl
  exact .visit_idle rfl ⟨rfl, trivial⟩
    (.block entered rfl inside (handles.append cleans))

theorem analyzeBranches_enacts {forms : List (Form × Form)} {branches : List (Int64 × Expr)}
    (run : analyzeBranches self cx forms before = .ok branches after) :
    Enacts config cx.frame (branches.map fun entry => .visit cx.place entry.2) before.store
      after.store := by
  induction forms generalizing before branches with
  | nil =>
    rw [analyzeBranches, pure_ok] at run
    obtain ⟨rfl, rfl⟩ := run
    exact .done
  | cons form forms ih =>
    simp only [analyzeBranches, bind_ok, settle_ok, pure_ok] at run
    obtain ⟨key, _, ⟨_, rfl⟩, branch, _, analyzed, rest, _, others, rfl, rfl⟩ := run
    exact (enacting analyzed).append (ih others)

theorem analyzeCase_enacts {args : List Form}
    (run : analyzeCase self cx args span before = .ok expr after) :
    Enacts config cx.frame [.visit cx.place expr] before.store after.store := by
  simp only [analyzeCase, bind_ok, settle_ok, pure_ok] at run
  obtain ⟨parts, _, ⟨_, rfl⟩, value, _, valued, branches, _, branched, run⟩ := run
  obtain ⟨fallback, _, otherwise, rfl, rfl⟩ := run
  exact .visit_idle rfl ⟨rfl, trivial⟩ ((enacting valued).append
    ((analyzeBranches_enacts enacting branched).append (enacting otherwise)))

theorem analyzeRecur_enacts {args : List Form}
    (run : analyzeRecur self cx args span before = .ok expr after) :
    Enacts config cx.frame [.visit cx.place expr] before.store after.store := by
  unfold analyzeRecur at run
  split at run
  next => simp [bind_ok, refuse_ok] at run
  next tail =>
    have tail : cx.position = .tail := by simpa using tail
    simp only [bind_ok, readTree_ok] at run
    obtain ⟨lineage, _, ⟨path, rfl⟩, run⟩ := run
    cases aimed : recurTarget lineage with
    | error fault => simp [aimed, bind_ok, refuse_ok] at run
    | ok found =>
      obtain ⟨target, expected⟩ := found
      simp only [aimed, bind_ok, pure_ok] at run
      obtain ⟨_, _, ⟨rfl, rfl⟩, run⟩ := run
      split at run
      next => simp [bind_ok, refuse_ok] at run
      next counted =>
        have counted : args.length = expected := by simpa using counted
        subst counted
        cases target with
        | loop frame =>
          simp only [bind_ok, pure_ok] at run
          obtain ⟨exprs, _, operands, rfl, rfl⟩ := run
          obtain ⟨follows, sameLength⟩ := analyzeOperands_enacts enacting operands
          rw [← sameLength] at aimed
          exact .visit ⟨rfl, tail⟩ (.recur path aimed) follows (.idle rfl) .done
        | function frame =>
          simp only [bind_ok, updateFunction_ok, pure_ok] at run
          -- The function is marked once the arguments have been analyzed.
          obtain ⟨exprs, _, operands, _, _, ⟨tree, marked, rfl⟩, rfl, rfl⟩ := run
          obtain ⟨follows, sameLength⟩ := analyzeOperands_enacts enacting operands
          rw [← sameLength] at aimed
          exact .visit ⟨rfl, tail⟩ (.recur path aimed) follows (.jump rfl marked) .done

end Parts

/-! ### Forms -/

theorem analyzeQuote_enacts {config : Config} {args : List Form}
    (run : analyzeQuote analyzer cx args span before = .ok expr after) :
    Enacts config cx.frame [.visit cx.place expr] before.store after.store := by
  unfold analyzeQuote at run
  split at run
  next form => exact analyzeQuoted_enacts run
  next => simp [refuse_ok] at run

theorem analyzeVar_enacts {config : Config} {args : List Form}
    (run : analyzeVar analyzer cx args span before = .ok expr after) :
    Enacts config cx.frame [.visit cx.place expr] before.store after.store := by
  unfold analyzeVar at run
  split at run
  next symbol symbolSpan =>
    simp only [findVar, bind_ok, askHost_ok] at run
    obtain ⟨found, _, ⟨_, rfl⟩, run⟩ := run
    split at run
    next var =>
      simp only [bind_ok, liftVar_ok, pure_ok] at run
      obtain ⟨lifted, _, ⟨tree, names, entered, rfl⟩, rfl, rfl⟩ := run
      exact .visit ⟨rfl, trivial⟩ (.var rfl entered) .done (.idle rfl) .done
    next => simp [bind_ok, refuse_ok] at run
  next => simp [refuse_ok] at run
  next => simp [refuse_ok] at run

theorem analyzeSpecial_enacts (enacting : self.Enacting analyzer.config) {special : Special}
    {args : List Form}
    (run : analyzeSpecial analyzer self cx special args span before = .ok expr after) :
    Enacts analyzer.config cx.frame [.visit cx.place expr] before.store after.store := by
  cases special with
  | define => exact analyzeDef_enacts enacting run
  | function => exact analyzeFunction_enacts enacting run
  | lets => exact analyzeLet_enacts enacting run
  | loop => exact analyzeLet_enacts enacting run
  | letfns => exact analyzeLetfn_enacts enacting run
  | sequence => exact analyzeDo_enacts enacting run
  | branch => exact analyzeIf_enacts enacting run
  | quotation => exact analyzeQuote_enacts run
  | varObject => exact analyzeVar_enacts run
  | throwing => exact analyzeThrow_enacts enacting run
  | guarded => exact analyzeTry_enacts enacting run
  | dispatch => exact analyzeCase_enacts enacting run
  | recur => exact analyzeRecur_enacts enacting run
  | native => exact analyzeNative_enacts enacting run

theorem analyzeStep_enacts (enacting : self.Enacting analyzer.config) :
    Recursion.Enacting (analyzeStep analyzer self) analyzer.config := by
  intro cx form before after expr run
  unfold analyzeStep at run
  split at run
  next symbol span => exact analyzeSymbol_enacts run
  -- A list is a special form or an application.
  next head args span =>
    cases special : head.symbol?.bind Special.ofSymbol? with
    | some special =>
      simp only [analyzeList, special] at run
      exact analyzeSpecial_enacts enacting run
    | none =>
      simp only [analyzeList, special] at run
      exact analyzeApplication_enacts enacting rfl run
  -- Other data are constant, or they have parts to be analyzed.
  next =>
    split at run
    next => exact analyzeQuoted_enacts run
    next =>
      split at run
      next items span =>
        simp only [bind_ok, pure_ok] at run
        obtain ⟨exprs, _, operands, rfl, rfl⟩ := run
        exact .visit_idle rfl ⟨rfl, trivial⟩ (analyzeOperands_enacts enacting operands).1
      next items span =>
        simp only [bind_ok, pure_ok] at run
        obtain ⟨exprs, _, operands, rfl, rfl⟩ := run
        exact .visit_idle rfl ⟨rfl, trivial⟩ (analyzeOperands_enacts enacting operands).1
      next forms span =>
        simp only [bind_ok, pure_ok] at run
        obtain ⟨entries, _, analyzed, rfl, rfl⟩ := run
        exact .visit_idle rfl ⟨rfl, trivial⟩ (analyzeEntries_enacts enacting analyzed)
      next => exact analyzeQuoted_enacts run

/-- Every result of the analysis comes with the run of its script, whatever the depth. -/
theorem analyzeForm_enacts (analyzer : Analyzer σ) (depth : Nat) :
    Recursion.Enacting (analyzeForm analyzer depth) analyzer.config := by
  induction depth with
  -- Without depth there is no result.
  | zero =>
    intro cx form before after expr run
    simp [analyzeForm, throw_ok] at run
  | succ depth ih => exact analyzeStep_enacts ih

/-- A form that is analyzed on its own is a boxed operand in the root frame. -/
theorem Session.analyze_enacts {depth : Nat} {form : Form} {session : Session σ}
    {analysis : Analysis}
    (analyzed : ((Session.analyze analyzer depth form).run session).1 = .ok analysis) :
    ∃ names, Enacts analyzer.config FrameTree.rootId [.visit .operand analysis.expr]
      ⟨.initial, session.names⟩ ⟨analysis.tree, names⟩ := by
  simp only [StateT.run, Session.analyze] at analyzed
  cases run : analyzeForm analyzer depth .topLevel form
      ⟨session.world, .initial, session.names, []⟩ with
  | ok expr state =>
    rw [run] at analyzed
    cases analyzed
    exact ⟨state.names, analyzeForm_enacts analyzer depth run⟩
  | error halt state =>
    rw [run] at analyzed
    cases analyzed

end LispScope
