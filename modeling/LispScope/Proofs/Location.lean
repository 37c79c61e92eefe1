import LispScope.Proofs.Account
import LispScope.Proofs.Safety
import LispScope.Proofs.Termination

/-!
# Where expressions and diagnostics point

Main statement: `Session.analyze_located`. Over a host that brings in no spans of its own, all nodes of
an expression and all that a diagnostic names have spans of the form that was analyzed, and what is
refused is a fault of the input unless the reader refused it.

The forms that an analysis goes on to are parts of the form, texts inside it or what it expands to, so
their spans are covered by those of the form. The account of an analysis says that its own nodes and
faults are located in the form; the rest is induction on the depth.
-/
namespace LispScope

open AnalysisM

variable {σ : Type} {host : Host σ} {config : Config} {start : σ} {S : Span → Prop}

/-! ### Forms that are covered -/

/-- The spans of a form and of all forms inside it are among certain ones. -/
def Form.Covered (S : Span → Prop) (form : Form) : Prop := ∀ sub : Form, sub.Within form → S sub.span

namespace Form

theorem covered_self (form : Form) : form.Covered form.HasSpan := fun sub within => ⟨sub, within, rfl⟩

theorem Covered.hasSpan {form : Form} {span : Span} (covered : form.Covered S)
    (located : form.HasSpan span) : S span := by
  obtain ⟨sub, within, rfl⟩ := located
  exact covered sub within

theorem Covered.within {form sub : Form} (covered : form.Covered S) (within : sub.Within form) :
    sub.Covered S := fun inner inside => covered inner (inside.trans within)

theorem Covered.imp {form : Form} {T : Span → Prop} (covered : form.Covered S)
    (wider : ∀ span, S span → T span) : form.Covered T := fun sub within => wider _ (covered sub within)

end Form

/-- A host that brings in no spans of its own: an expansion has spans of the call only, and what is read
from a text has the span that was given for the text, as has whatever the reader complains of. -/
structure Host.Faithful (host : Host σ) (start : σ) : Prop where
  expanded : ∀ call world expansion after, host.Reaches start world →
    host.expandOnce call world = .ok expansion after → expansion.Covered call.HasSpan
  read : ∀ text span world forms after, host.Reaches start world →
    host.readFragment text span world = .ok forms after → ∀ form ∈ forms, form.Covered (· = span)
  unread : ∀ text span world diagnostic after, host.Reaches start world →
    host.readFragment text span world = .error diagnostic after →
      diagnostic.span = span ∧ ∀ call ∈ diagnostic.expansions, call.Covered (· = span)

/-- What a form comes with is covered by its spans. -/
theorem Supplies.covered {form new : Form} (faithful : host.Faithful start)
    (supplies : Supplies host (host.Reaches start) form new) (covered : form.Covered S) :
    new.Covered S := by
  cases supplies with
  | part member within => exact covered.within (.inside member within)
  | fragment shaped member reached read =>
    -- What is read has the span of the text, which stands inside the form.
    refine (faithful.read _ _ _ _ _ reached read new (List.mem_singleton_self new)).imp ?_
    rintro _ rfl
    exact covered _ (.inside (List.mem_cons_of_mem _ (List.mem_singleton_self _)) .self)

/-! ### Results -/

/-- A diagnostic comes from the reader, apart from the open calls that may be noted on it. -/
def Host.Complains (host : Host σ) (start : σ) (diagnostic : Diagnostic) : Prop :=
  ∃ world text span complaint after, host.Reaches start world ∧
    host.readFragment text span world = .error complaint after ∧
    ∃ calls, diagnostic = complaint.noteExpansions calls

namespace Diagnostic

theorem noteExpansions_self (diagnostic : Diagnostic) :
    diagnostic.noteExpansions diagnostic.expansions = diagnostic := by
  unfold noteExpansions
  split <;> rfl

/-- Calls are only noted once. -/
theorem noteExpansions_twice (diagnostic : Diagnostic) (first second : List Form) :
    (diagnostic.noteExpansions first).noteExpansions second =
      diagnostic.noteExpansions (if first.isEmpty then second else first) := by
  by_cases bare : diagnostic.expansions.isEmpty
  · simp only [noteExpansions, bare, if_true, withExpansions]
    split <;> rfl
  · simp [noteExpansions, bare]

end Diagnostic

namespace Host.Complains

variable {diagnostic : Diagnostic}

theorem unread {world after : σ} {text : String} {span : Span} (reached : host.Reaches start world)
    (answer : host.readFragment text span world = .error diagnostic after) :
    host.Complains start diagnostic :=
  ⟨world, text, span, diagnostic, after, reached, answer, _, diagnostic.noteExpansions_self.symm⟩

theorem noted (complains : host.Complains start diagnostic) (calls : List Form) :
    host.Complains start (diagnostic.noteExpansions calls) := by
  obtain ⟨world, text, span, complaint, after, reached, answer, earlier, rfl⟩ := complains
  exact ⟨world, text, span, complaint, after, reached, answer, _,
    complaint.noteExpansions_twice earlier calls⟩

end Host.Complains

/-- What a diagnostic names is located, and it is the reader's or a fault of the input, unless the
scopes were broken. -/
structure Diagnostic.Located (host : Host σ) (start : σ) (S : Span → Prop) (diagnostic : Diagnostic) :
    Prop where
  here : S diagnostic.span
  calls : ∀ call ∈ diagnostic.expansions, call.Covered S
  origin : diagnostic.kind.family = .analyze ∨ host.Complains start diagnostic ∨
    diagnostic.kind = .internalFailure

theorem Diagnostic.Located.noted {diagnostic : Diagnostic} {calls : List Form}
    (located : diagnostic.Located host start S) (covered : ∀ call ∈ calls, call.Covered S) :
    (diagnostic.noteExpansions calls).Located host start S where
  here := by
    rw [noteExpansions_span]
    exact located.here
  calls := by
    unfold noteExpansions
    split
    · exact covered
    · exact located.calls
  origin := by
    rw [noteExpansions_kind]
    exact located.origin.imp_right (.imp_left (·.noted calls))

/-- A result that points to certain spans only. -/
inductive Points (host : Host σ) (start : σ) (S : Span → Prop) :
    EStateM.Result Halt (State σ) Expr → Prop
  | ok (nodes : ∀ sub ∈ expr.walk, S sub.span) : Points host start S (.ok expr after)
  | exhausted : Points host start S (.error .exhausted after)
  | refused (located : diagnostic.Located host start S) :
      Points host start S (.error (.refused diagnostic) after)

/-- The nodes that are told of are located if those from other analyses are. -/
theorem Tells.located {form : Form} {exprs : List Expr} {trace : List (Event σ)}
    (tells : Tells form exprs trace) (covered : form.Covered S)
    (visited : ∀ moment expr, .visit moment expr ∈ trace → ∀ sub ∈ expr.walk, S sub.span) :
    ∀ expr ∈ exprs, ∀ sub ∈ expr.walk, S sub.span := by
  induction tells with
  | nil => nofun
  | visit moment _ ih =>
    refine List.forall_mem_cons.mpr ⟨visited moment _ (List.mem_cons_self ..), ih ?_⟩
    exact fun moment expr member => visited moment expr (List.mem_cons_of_mem _ member)
  | node located _ _ ihInside ihRest =>
    have others := ihRest fun moment expr member => visited moment expr (by simp [member])
    have children := ihInside fun moment expr member => visited moment expr (by simp [member])
    refine List.forall_mem_cons.mpr ⟨?_, others⟩
    rw [Expr.walk_eq]
    refine List.forall_mem_cons.mpr ⟨covered.hasSpan located, fun sub member => ?_⟩
    obtain ⟨child, held, member⟩ := List.mem_flatMap.mp member
    exact children child held sub member

/-- Where a course breaks off, the diagnostic is located. -/
theorem Breaks.points {setting : Setting σ} {before after : State σ} {halt : Halt}
    (breaks : Breaks setting before halt after) (faithful : setting.host.Faithful setting.start)
    (covered : setting.form.Covered S) : Points setting.host setting.start S (.error halt after) := by
  cases breaks with
  | fault proper located => exact .refused ⟨covered.hasSpan located, nofun, .inl proper⟩
  | broken internal located => exact .refused ⟨covered.hasSpan located, nofun, .inr (.inr internal)⟩
  | unread located reached answer =>
    obtain ⟨rfl, calls⟩ := faithful.unread _ _ _ _ _ reached answer
    have origin := Host.Complains.unread reached answer
    refine .refused ⟨covered.hasSpan located, fun call member => ?_, .inr (.inl origin)⟩
    refine (calls call member).imp ?_
    rintro _ rfl
    exact covered.hasSpan located

/-- The result of an analysis points to spans that cover its form and the calls around it. -/
theorem analyzeForm_points (faithful : host.Faithful start) (depth : Nat) (moment : Moment σ)
    (proper : moment.state.Proper host start) (covered : moment.form.Covered S)
    (around : ∀ call ∈ moment.state.expansions, call.Covered S) :
    Points host start S (moment.outcome (analyzeForm ⟨host, config⟩ depth)) := by
  induction depth generalizing moment with
  | zero => exact .exhausted
  | succ depth ih =>
    have steady : Steady host start (analyzeForm ⟨host, config⟩ depth) := analyzeForm_steady depth
    have stack : ∀ call ∈ moment.state.expansions ++ [moment.form], call.Covered S :=
      List.forall_mem_append.mpr ⟨around, by simpa using covered⟩
    have expanding {expansion : Form} {world : σ}
        (expanded : host.expandOnce moment.form moment.state.world = .ok expansion world) :
        Points host start S ((moment.expanding expansion world).outcome _) :=
      ih _ (proper.expanding expanded)
        ((faithful.expanded _ _ _ _ proper.reached expanded).imp fun _ => covered.hasSpan) stack
    have entering {inner : Moment σ} (makes : (moment.setting host start).Makes inner) :
        Points host start S (inner.outcome (analyzeForm ⟨host, config⟩ depth)) :=
      ih inner makes.proper (makes.supplied.covered faithful covered) (makes.nested ▸ around)
    generalize outcome : moment.outcome (analyzeForm ⟨host, config⟩ (depth + 1)) = result
    rcases analyzeForm_succ steady proper outcome with ⟨_, expands⟩ | ⟨_, ending⟩
    · cases expands with
      | ok expanded given =>
        have points := expanding expanded
        rw [given] at points
        cases points with
        | ok nodes => exact .ok nodes
      | exhausted => exact .exhausted
      | refused expanded failed =>
        have points := expanding expanded
        rw [failed] at points
        cases points with
        | refused located =>
          have kept := (steady.balanced _ _).error failed
          exact .refused (located.noted (kept ▸ stack))
      | unexpanded failed => exact .refused ⟨covered _ .self, stack, .inl rfl⟩
    · cases ending with
      | ok path holds =>
        obtain ⟨_, rfl, tells⟩ := holds
        refine .ok (tells.located covered (fun inner expr member => ?_) _ (List.mem_singleton_self _))
        obtain ⟨makes, _, given⟩ := path.visited member
        have points := entering makes
        rw [given] at points
        cases points with
        | ok nodes => exact nodes
      | breaks path breaks => exact breaks.points faithful covered
      | fails inner path makes failed =>
        have points := entering makes
        rwa [failed] at points

/-! ### Whole analyses -/

/-- Analyses that are refused for an internal failure only if the reader says so. -/
def Regime.complaining (host : Host σ) (start : σ) : Regime host := by
  refine .reachable host start
    (fun halt => ∀ diagnostic, halt = .refused diagnostic → diagnostic.kind = .internalFailure →
      host.Complains start diagnostic) ?_ ?_ ?_ ?_
  · rintro fault span apart _ ⟨⟩ internal
    exact (apart internal).elim
  · rintro call cause _ ⟨⟩ ⟨⟩
  · rintro diagnostic calls halts _ ⟨⟩ internal
    rw [Diagnostic.noteExpansions_kind] at internal
    exact (halts diagnostic rfl internal).noted calls
  · rintro world text span diagnostic after reached answer _ ⟨⟩ _
    exact .unread reached answer

/-- Expressions and diagnostics point into the form that was analyzed: all nodes of an expression have
spans of the form; so have a diagnostic and the macro calls that it names, with all their parts. A form
is refused for a fault of the input, or for what the reader finds wrong with a text. -/
theorem Session.analyze_located (host : Host σ) (config : Config) (session : Session σ)
    (faithful : host.Faithful session.world) (depth : Nat) (form : Form) :
    (∀ analysis, ((analyze ⟨host, config⟩ depth form).run session).1 = .ok analysis →
      ∀ expr ∈ analysis.expr.walk, form.HasSpan expr.span) ∧
      ∀ diagnostic, ((analyze ⟨host, config⟩ depth form).run session).1 = .error (.refused diagnostic) →
        form.HasSpan diagnostic.span ∧
        (∀ call ∈ diagnostic.expansions, call.Covered form.HasSpan) ∧
        (diagnostic.kind.family = .analyze ∨ host.Complains session.world diagnostic) := by
  have exhausted : (Regime.complaining host session.world).Halts .exhausted := nofun
  have same : config.Alike .strict config := .refl config
  have follows := analyzeForm_follows same exhausted depth form
  have halts := (follows.analyze rfl rfl .start).halts
  have points : Points host session.world form.HasSpan (analyzeForm ⟨host, config⟩ depth .topLevel form
      ⟨session.world, .initial, session.names, []⟩) :=
    analyzeForm_points faithful depth (session.moment form) (session.moment_proper form)
      form.covered_self nofun
  change (∀ analysis, (analyze ⟨host, config⟩ depth form session).1 = .ok analysis → _) ∧
    ∀ diagnostic, (analyze ⟨host, config⟩ depth form session).1 = .error (.refused diagnostic) → _
  change ∀ halt, (analyze ⟨host, config⟩ depth form session).1 = .error halt → _ at halts
  unfold analyze at halts ⊢
  generalize analyzeForm _ depth _ _ _ = outcome at points halts
  cases points with
  | ok nodes =>
    refine ⟨?_, nofun⟩
    rintro _ ⟨⟩
    exact nodes
  | exhausted => exact ⟨nofun, nofun⟩
  | refused located =>
    refine ⟨nofun, ?_⟩
    rintro _ ⟨⟩
    refine ⟨located.here, located.calls, ?_⟩
    rcases located.origin with fault | complaint | internal
    · exact .inl fault
    · exact .inr complaint
    -- The scopes are never broken, so the reader must have said so.
    · exact .inr (halts _ rfl _ rfl internal)

/-! ### Standard macros -/

namespace Standard

theorem covered_headed {span : Span} {items : List Form} (head : String) (here : S span)
    (covered : ∀ item ∈ items, item.Covered S) : (headed span head items).Covered S := by
  intro sub within
  cases within with
  | self => exact here
  | inside member within =>
    rcases List.mem_cons.mp member with rfl | among
    · cases within with
      | self => exact here
      | inside member => cases member
    · exact covered _ among sub within

theorem covered_arguments {call : Form} (covered : call.Covered S) :
    ∀ item ∈ Expander.arguments call, item.Covered S := by
  intro item member
  unfold Expander.arguments Form.list? at member
  split at member
  · exact covered.within (.inside (List.mem_of_mem_tail member) .self)
  · cases member

section

variable {call expansion : Form}

theorem covered_when (expanded : expandWhen call = .ok expansion) : expansion.Covered call.HasSpan := by
  have args := covered_arguments call.covered_self
  unfold expandWhen at expanded
  cases shaped : Expander.arguments call with
  | nil =>
    rw [shaped] at expanded
    cases expanded
  | cons condition body =>
    rw [shaped] at args expanded
    cases expanded
    rw [List.forall_mem_cons] at args
    have branch := covered_headed "do" call.hasSpan_self args.2
    refine covered_headed _ call.hasSpan_self (List.forall_mem_cons.mpr ⟨args.1, ?_⟩)
    exact List.forall_mem_singleton.mpr branch

theorem covered_unless (expanded : expandUnless call = .ok expansion) :
    expansion.Covered call.HasSpan := by
  have args := covered_arguments call.covered_self
  unfold expandUnless at expanded
  cases shaped : Expander.arguments call with
  | nil =>
    rw [shaped] at expanded
    cases expanded
  | cons condition body =>
    rw [shaped] at args expanded
    cases expanded
    rw [List.forall_mem_cons] at args
    have test := covered_headed "nil?" call.hasSpan_self (List.forall_mem_singleton.mpr args.1)
    exact covered_headed _ call.hasSpan_self (List.forall_mem_cons.mpr ⟨test, args.2⟩)

theorem covered_defn (expanded : expandDefn call = .ok expansion) : expansion.Covered call.HasSpan := by
  have args := covered_arguments call.covered_self
  unfold expandDefn at expanded
  cases shaped : Expander.arguments call with
  | nil =>
    rw [shaped] at expanded
    cases expanded
  | cons name rest =>
    rw [shaped] at args expanded
    cases expanded
    have function := covered_headed "fn*" call.hasSpan_self args
    rw [List.forall_mem_cons] at args
    refine covered_headed _ call.hasSpan_self (List.forall_mem_cons.mpr ⟨args.1, ?_⟩)
    exact List.forall_mem_singleton.mpr function

/-- The expansion of a standard macro has spans of the call only. -/
theorem covered_of_expanded {name : String} {expander : Expander}
    (standard : (name, expander) ∈ macros) (expanded : expander call = .ok expansion) :
    expansion.Covered call.HasSpan := by
  simp only [macros, List.mem_cons, List.not_mem_nil, or_false, Prod.mk.injEq] at standard
  rcases standard with ⟨_, rfl⟩ | ⟨_, rfl⟩ | ⟨_, rfl⟩ | ⟨_, rfl⟩ | ⟨_, rfl⟩
  · exact covered_when expanded
  · exact covered_unless expanded
  · exact covered_defn expanded
  · cases expanded
    exact covered_headed _ call.hasSpan_self (List.forall_mem_nil _)
  -- `boom` has no expansion.
  · cases expanded

end

theorem Ordinary.covered {spaces : Namespaces} {call expansion : Form} (ordinary : Ordinary spaces)
    (expanded : spaces.expandOnce call = .ok expansion) : expansion.Covered call.HasSpan := by
  unfold Namespaces.expandOnce at expanded
  split at expanded
  next expander found =>
    obtain ⟨symbol, _, held⟩ := Option.bind_eq_some_iff.mp found
    have standard := ordinary (spaces.qualify symbol) expander (congrArg Option.join held)
    exact covered_of_expanded standard expanded
  next =>
    cases expanded
    exact call.covered_self

/-- Reads a text as a single name. -/
def readName : FragmentReader := fun text span => return [.symbol (.parse text) span]

/-- The standard namespaces, with a reader of names. -/
theorem faithful_readName : Namespaces.host.Faithful (namespaces.withReader readName) := by
  have kept {spaces : Namespaces}
      (reached : Namespaces.host.Reaches (namespaces.withReader readName) spaces) :
      Ordinary spaces ∧ spaces.reader = some readName := by
    have ordinary : Ordinary (namespaces.withReader readName) := ordinary_namespaces
    refine Namespaces.holds_of_reaches
      (P := fun spaces => Ordinary spaces ∧ spaces.reader = some readName) ⟨ordinary, rfl⟩ ?_ ?_ reached
    · exact fun spaces symbol kept => ⟨kept.1.define nofun, kept.2⟩
    · exact fun spaces keywords kept => kept
  refine ⟨fun call spaces expansion after reached expanded => ?_, ?_, ?_⟩
  · simp only [Namespaces.host] at expanded
    split at expanded <;> cases expanded
    next once => exact (kept reached).1.covered once
  · intro text span spaces forms after reached read
    simp only [Namespaces.host, Namespaces.readFragment, (kept reached).2] at read
    cases read
    refine List.forall_mem_singleton.mpr fun sub within => ?_
    cases within with
    | self => rfl
    | inside member => cases member
  · intro text span spaces diagnostic after reached unread
    simp only [Namespaces.host, Namespaces.readFragment, (kept reached).2] at unread
    cases unread

end Standard

/-- `(unless 1 (native/raw "~{y}"))`, with a span of its own for every form. -/
def misspelled : Form :=
  let span (number : Nat) : Span := ⟨number, number + 1, 1, number + 1, none⟩
  .list [.symbol (.simple "unless") (span 1), .atom (.int 1) (span 2),
    .list [.symbol (.qualified "native" "raw") (span 4), .atom (.string "~\x7by\x7d") (span 5)]
      (span 3)] (span 0)

/-- The kind of the diagnostic that a form was refused with, where it points to, and how many open calls
are noted on it. -/
def pointer? : Except Halt Analysis → Option (Kind × Span × Nat)
  | .error (.refused diagnostic) =>
    some (diagnostic.kind, diagnostic.span, diagnostic.expansions.length)
  | _ => none

/-- In `misspelled` the name is refused at the text that it is read from. The form that `unless` expands
to is still open then, and has only spans of the call. -/
theorem misspelled_located : ∃ diagnostic,
    ((Session.analyze ⟨Namespaces.host, .standard⟩ 8 misspelled).run
      (.start (Standard.namespaces.withReader Standard.readName))).1 = .error (.refused diagnostic) ∧
    diagnostic.kind = .unresolvedSymbol ∧ diagnostic.span = ⟨5, 6, 1, 6, none⟩ ∧
    misspelled.HasSpan diagnostic.span ∧ diagnostic.expansions.length = 2 ∧
    ∀ call ∈ diagnostic.expansions, call.Covered misspelled.HasSpan := by
  have computed : pointer? ((Session.analyze ⟨Namespaces.host, .standard⟩ 8 misspelled).run
      (.start (Standard.namespaces.withReader Standard.readName))).1 =
        some (.unresolvedSymbol, ⟨5, 6, 1, 6, none⟩, 2) := by
    decide +kernel
  obtain ⟨_, refused⟩ := Session.analyze_located Namespaces.host .standard
    (.start (Standard.namespaces.withReader Standard.readName)) Standard.faithful_readName 8 misspelled
  generalize ((Session.analyze ⟨Namespaces.host, .standard⟩ 8 misspelled).run
    (.start (Standard.namespaces.withReader Standard.readName))).1 = result at computed refused
  unfold pointer? at computed
  split at computed
  next diagnostic =>
    have found : diagnostic.kind = .unresolvedSymbol ∧ diagnostic.span = ⟨5, 6, 1, 6, none⟩ ∧
        diagnostic.expansions.length = 2 := by
      simpa using computed
    obtain ⟨kind, span, noted⟩ := found
    obtain ⟨here, calls, _⟩ := refused diagnostic rfl
    exact ⟨diagnostic, rfl, kind, span, here, noted, calls⟩
  next => cases computed

end LispScope
