import LispScope.Proofs.Accord
import LispScope.Proofs.Balance

/-!
# Forms are analyzed one by one

Main statement: `Session.analyzeAll_independent`. Of the forms before it, a form sees what they did to
the host and how many names they drew, and nothing else: its result is the one it has in a session of
its own over the same host, with the numbers of all generated names moved on. Whatever became of it, it
leaves no macro call open.
-/
namespace LispScope.Session

variable {σ : Type} {analyzer : Analyzer σ} {depth : Nat} {forms : List Form} {session : Session σ}

theorem analyzeAll_cons (form : Form) :
    (analyzeAll analyzer depth (form :: forms)).run session =
      let first := (analyze analyzer depth form).run session
      let rest := (analyzeAll analyzer depth forms).run first.2
      (first.1 :: rest.1, rest.2) := by
  rw [analyzeAll, List.mapM_cons]
  rfl

theorem length_analyzeAll :
    ((analyzeAll analyzer depth forms).run session).1.length = forms.length := by
  induction forms generalizing session with
  | nil => rfl
  | cons form forms ih => rw [analyzeAll_cons, List.length_cons, ih, List.length_cons]

/-- A form is analyzed in the session that the forms before it have left. -/
theorem analyzeAll_at {form : Form} {count : Nat} (found : forms[count]? = some form) :
    let before := ((analyzeAll analyzer depth (forms.take count)).run session).2
    ((analyzeAll analyzer depth forms).run session).1[count]? =
        some ((analyze analyzer depth form).run before).1 ∧
      ((analyzeAll analyzer depth (forms.take (count + 1))).run session).2 =
        ((analyze analyzer depth form).run before).2 := by
  induction forms generalizing session count with
  | nil => cases found
  | cons first forms ih =>
    cases count with
    | zero =>
      cases found
      exact ⟨by rw [analyzeAll_cons]; rfl, by rw [List.take_succ_cons, analyzeAll_cons]; rfl⟩
    | succ count =>
      simp only [List.take_succ_cons, analyzeAll_cons]
      exact ih found

/-- There is one result per form. Each is the result of the form in a new session over the host that the
forms before it have left, with the numbers of the generated names moved on by the names drawn so far;
and the host and the supply go on as that session leaves them, with no macro call open. -/
theorem analyzeAll_independent (analyzer : Analyzer σ) (depth : Nat) (world : σ)
    (forms : List Form) :
    let results := ((analyzeAll analyzer depth forms).run (.start world)).1
    let after (count : Nat) := ((analyzeAll analyzer depth (forms.take count)).run (.start world)).2
    results.length = forms.length ∧ ∀ k : Fin forms.length,
      let alone := (analyze analyzer depth forms[k]).run (.start (after k).world)
      (∃ result, results[k.val]? = some result ∧
        Answers ⟨(after k).names.issued, false⟩ alone.1 result) ∧
      (after (k + 1)).world = alone.2.world ∧
      (after (k + 1)).names.issued = (after k).names.issued + alone.2.names.issued ∧
      (after (k + 1)).expansions = [] := by
  intro results after
  refine ⟨length_analyzeAll, fun k => ?_⟩
  intro alone
  have found : forms[k.val]? = some forms[k] := List.getElem?_eq_getElem k.isLt
  obtain ⟨result, next⟩ := analyzeAll_at found
  -- The form on its own and the form in its turn go in step; only the supplies of names differ.
  have same : analyzer.config.Alike ⟨(after k).names.issued, false⟩ analyzer.config := .refl _
  have exhausted : (Regime.any analyzer.host (after k).world).Halts .exhausted := trivial
  have moved : (Session.start (after k).world).names.Alike ⟨(after k).names.issued, false⟩
      (after k).names := (Nat.zero_add _).symm
  have world : (Session.start (after k).world).world = (after k).world := rfl
  have answer := (analyzeForm_follows same exhausted depth forms[k]).analyze world moved .start
  refine ⟨⟨_, result, answer.results⟩, ?_, ?_, ?_⟩
  · exact (congrArg Session.world next).trans answer.sessions.world.symm
  · have drawn : ((analyze analyzer depth forms[k]).run (after k)).2.names.issued =
        alone.2.names.issued + (after k).names.issued := answer.sessions.names
    have reached := congrArg (fun session : Session σ => session.names.issued) next
    exact (reached.trans drawn).trans (Nat.add_comm ..)
  · exact (congrArg Session.expansions next).trans analyze_closed

end LispScope.Session
