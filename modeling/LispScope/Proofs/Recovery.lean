import LispScope.Proofs.Printing
import LispScope.Proofs.Resolution
import LispScope.Proofs.Splitting
import LispScope.Proofs.Termination

/-!
# Interpolated forms are recovered

Main statement: `analyzeNative_recovers`. Native code that is written from forms, each between its
marker and a closing brace, is split into the texts of these forms again if and only if the braces of
each printed form are balanced. Then every form is read back and analyzed as if it stood by itself.
Braces in a collection are always balanced; those in a string or a character need not be, and the
splitting counts them all the same.

Read from its place in native code, a form has other spans than where it stood before. The analysis does
not look at them: over the standard namespaces, having the same datum is a resemblance.
-/
namespace LispScope

/-! ### Balanced texts -/

namespace Piece

/-- What closes the braces that are open can be followed by anything that closes the other ones. -/
theorem closes_append {depth further : Nat} {chars rest : List Char} (closes : Closes depth chars) :
    Closes (depth + further) (chars ++ rest) ↔ Closes further rest := by
  induction chars generalizing depth with
  | nil =>
    obtain rfl := closes_nil.mp closes
    rw [Nat.zero_add, List.nil_append]
  | cons c chars ih =>
    rw [closes_cons] at closes
    rw [List.cons_append, closes_cons]
    split at closes
    next opens => rw [if_pos opens, Nat.add_right_comm, ih closes]
    next =>
      split at closes
      -- The brace closes one of the first braces, as long as some of these are open.
      next opens shuts =>
        obtain ⟨inside, closes⟩ := closes
        rw [if_neg opens, if_pos shuts, Nat.sub_add_comm inside, ih closes]
        exact and_iff_right (Nat.add_pos_left inside _)
      next opens shuts => rw [if_neg opens, if_neg shuts, ih closes]

theorem Closes.append {first second : List Char} (left : Closes 0 first) (right : Closes 0 second) :
    Closes 0 (first ++ second) := (closes_append left).mpr right

theorem closes_singleton {c : Char} (unbraced : c ≠ '{' ∧ c ≠ '}') : Closes 0 [c] := by
  rw [closes_cons, if_neg unbraced.1, if_neg unbraced.2]
  exact closes_nil.mpr rfl

theorem Closes.braced {chars : List Char} (closes : Closes 0 chars) :
    Closes 0 ('{' :: (chars ++ ['}'])) := by
  rw [closes_cons, if_pos rfl, closes_append closes]
  simp [closes_cons, closes_nil]

theorem Closes.intercalate {separator : List Char} {pieces : List (List Char)}
    (separates : Closes 0 separator) (each : ∀ piece ∈ pieces, Closes 0 piece) :
    Closes 0 (separator.intercalate pieces) := by
  induction pieces with
  | nil => exact closes_nil.mpr rfl
  | cons piece pieces ih =>
    obtain ⟨first, others⟩ := List.forall_mem_cons.mp each
    cases pieces with
    | nil => simpa using first
    | cons next pieces =>
      rw [List.intercalate_cons_cons]
      exact (first.append separates).append (ih others)

/-- A collection is printed with balanced braces if its atoms are. -/
theorem balanced_text {datum : Datum}
    (atoms : ∀ value, datum.Contains value → Balanced value.text) : Balanced datum.text := by
  have blank : Closes 0 [' '] := closes_singleton (by decide)
  rw [balanced_iff]
  induction datum using Datum.induction with
  | atom value => exact balanced_iff.mp (atoms value .here)
  | seq shape items ih =>
    have inside : Closes 0 ([' '].intercalate (items.map fun item => item.text.toList)) := by
      refine blank.intercalate fun piece member => ?_
      obtain ⟨item, among, rfl⟩ := List.mem_map.mp member
      exact ih item among fun value contains => atoms value (.item among contains)
    have written : (Datum.seq shape items).text.toList = shape.opening.toList ++
        ([' '].intercalate (items.map fun item => item.text.toList) ++ shape.closing.toList) := by
      simp [Datum.text, Datum.texts_eq_map, Function.comp_def]
    rw [written]
    cases shape with
    | list =>
      exact (closes_singleton (by decide)).append (inside.append (closes_singleton (by decide)))
    | vector =>
      exact (closes_singleton (by decide)).append (inside.append (closes_singleton (by decide)))
    | set => exact (@closes_singleton '#' (by decide)).append inside.braced
  | map entries ih =>
    have inside : Closes 0 ([',', ' '].intercalate
        (entries.map fun entry => entry.1.text.toList ++ ([' '] ++ entry.2.text.toList))) := by
      refine Closes.intercalate ((@closes_singleton ',' (by decide)).append blank) ?_
      intro piece member
      obtain ⟨entry, among, rfl⟩ := List.mem_map.mp member
      have key := (ih entry among).1 fun value contains => atoms value (.key among contains)
      have value := (ih entry among).2 fun value contains => atoms value (.value among contains)
      exact key.append (blank.append value)
    have written : (Datum.map entries).text.toList = '{' :: ([',', ' '].intercalate
        (entries.map fun entry => entry.1.text.toList ++ ([' '] ++ entry.2.text.toList)) ++ ['}']) := by
      simp [Datum.text, Datum.entryTexts_eq_map, Function.comp_def]
    rw [written]
    exact inside.braced

/-- Blanks around a text change nothing about its braces. -/
theorem balanced_padded {text : String} : Balanced (" " ++ text ++ " ") ↔ Balanced text := by
  have blank : Closes 0 [' '] := closes_singleton (by decide)
  have padded : (" " ++ text ++ " ").toList = [' '] ++ (text.toList ++ [' ']) := by simp
  have leading : Closes 0 (' ' :: (text.toList ++ [' '])) ↔ Closes 0 (text.toList ++ [' ']) :=
    @closes_append 0 0 _ _ blank
  rw [balanced_iff, balanced_iff, padded, List.singleton_append, leading]
  constructor
  · intro closes
    refine ⟨fun before first => closes.nested before (first.trans (List.prefix_append ..)), ?_⟩
    simpa using closes.closed
  · exact fun closes => closes.append blank

end Piece

/-! ### Texts with blanks around them -/

namespace Source

variable {place : Place} {text : List Char} {tokens moved : List Token} {forms : List Form}

/-- A text consists of the same lexemes wherever it begins. -/
theorem Scans.exists_moved (scans : Scans place text tokens) (other : Place) :
    ∃ moved, Scans other text moved ∧ moved.map Token.lexeme = tokens.map Token.lexeme := by
  induction scans generalizing other with
  | done => exact ⟨[], .done, rfl⟩
  | @blank _ c _ _ blank _ ih =>
    obtain ⟨moved, scans, same⟩ := ih (other.after c)
    exact ⟨moved, .blank blank scans, same⟩
  | @remark _ remark _ _ inside ends _ ih =>
    obtain ⟨moved, scans, same⟩ := ih (other.past (';' :: remark))
    exact ⟨moved, .remark inside ends scans, same⟩
  | @token _ lexeme spelled _ _ _ spells ends _ ih =>
    obtain ⟨moved, scans, same⟩ := ih (other.past spelled)
    refine ⟨_, .token spells ends scans, ?_⟩
    rw [List.map_cons, List.map_cons, same]

theorem Scans.eq_nil (scans : Scans place [] tokens) : tokens = [] := by
  generalize empty : [] = text at scans
  cases scans with
  | done => rfl
  | blank => cases empty
  | remark => cases empty
  | token spells => exact absurd (List.append_eq_nil_iff.mp empty.symm).1 spells.ne_nil

/-- A blank behind a text is no token: it ends the last word, or belongs to the last remark. -/
theorem Scans.concat_blank (scans : Scans place text tokens) : Scans place (text ++ [' ']) tokens := by
  induction scans with
  | done => exact .blank (by decide) .done
  | blank blank _ ih => exact .blank blank ih
  | @remark place remark text tokens inside ends rest ih =>
    cases text with
    -- The remark goes on to the end of the text, so the blank becomes part of it.
    | nil =>
      obtain rfl := rest.eq_nil
      have longer : ∀ c ∈ remark ++ [' '], c ≠ '\n' := by
        intro c member
        rcases List.mem_append.mp member with inner | last
        · exact inside c inner
        · rw [List.mem_singleton.mp last]
          decide
      simpa using @Scans.remark place _ [] _ longer nofun .done
    | cons c text =>
      rw [List.cons_append, List.append_assoc]
      exact .remark inside ends ih
  | @token place lexeme spelled text isOpen tokens spells ends rest ih =>
    rw [List.append_assoc]
    refine .token spells (fun isOpen => ?_) ih
    cases text with
    | nil => exact .cons (by decide)
    | cons c text => exact ends isOpen

/-- Whether items can be closed, and to which datum, depends on their data only. -/
theorem close_of_data {opener : Opener} {items others : List Form} {span : Span} {form : Form}
    (closes : Assembly.close opener items span = .ok form)
    (same : others.map Form.datum = items.map Form.datum) (place : Span) :
    ∃ again, Assembly.close opener others place = .ok again ∧ again.datum = form.datum := by
  cases opener with
  | seq shape =>
    cases closes
    refine ⟨_, rfl, ?_⟩
    rw [Form.datum, Form.datum, Form.data_eq_map, Form.data_eq_map, same]
  | map =>
    rw [Assembly.close] at closes
    split at closes <;> cases closes
    next entries paired =>
      have flat : others.map Form.datum =
          (Form.entryData entries).flatMap fun entry => [entry.1, entry.2] := by
        rw [same, ← flatMap_of_pairs? paired, Form.entryData_eq_map, List.map_flatMap,
          List.flatMap_map]
        rfl
      exact close_map flat place

/-- The same lexemes make up forms with the same data. -/
theorem Assembles.exists_moved (assembles : Assembles tokens forms)
    (same : moved.map Token.lexeme = tokens.map Token.lexeme) :
    ∃ others, Assembles moved others ∧ others.map Form.datum = forms.map Form.datum := by
  induction assembles generalizing moved with
  | nil =>
    obtain rfl := List.map_eq_nil_iff.mp same
    exact ⟨[], .nil, rfl⟩
  | atom _ ih =>
    obtain ⟨⟨_, span⟩, rest, rfl, rfl, later⟩ := List.map_eq_cons_iff.mp same
    obtain ⟨others, assembles, data⟩ := ih later
    refine ⟨_, .atom assembles, ?_⟩
    rw [List.map_cons, List.map_cons, data]
    rfl
  | @collection opener opening closing inner tokens items forms form _ closes _ within ih =>
    rw [List.map_cons, List.map_append, List.map_cons] at same
    obtain ⟨⟨_, first⟩, others, rfl, rfl, later⟩ := List.map_eq_cons_iff.mp same
    obtain ⟨inside, others, rfl, held, after⟩ := List.map_eq_append_iff.mp later
    obtain ⟨⟨_, last⟩, others, rfl, rfl, behind⟩ := List.map_eq_cons_iff.mp after
    obtain ⟨parts, inner, data⟩ := within held
    obtain ⟨others, assembles, rests⟩ := ih behind
    obtain ⟨made, closed, datum⟩ := close_of_data closes data { first with stop := last.stop }
    refine ⟨_, .collection inner closed assembles, ?_⟩
    rw [List.map_cons, List.map_cons, rests, datum]
  | @quote mark inner tokens form forms _ _ within ih =>
    rw [List.map_cons, List.map_append] at same
    obtain ⟨⟨_, first⟩, others, rfl, rfl, later⟩ := List.map_eq_cons_iff.mp same
    obtain ⟨inside, others, rfl, held, after⟩ := List.map_eq_append_iff.mp later
    obtain ⟨parts, inner, data⟩ := within held
    obtain ⟨others, assembles, rests⟩ := ih after
    obtain ⟨quoted, rfl, datum⟩ := List.map_eq_singleton_iff.mp data
    refine ⟨_, .quote inner assembles, ?_⟩
    rw [List.map_cons, List.map_cons, rests]
    simp [Assembly.quoteForm, Form.datum, Form.data, datum]

/-- A text with a form is read the same with blanks around it, spans aside. -/
theorem readAll_padded {text : String} {form : Form} (reads : readOne text = .ok form) :
    ∃ again, readAll (" " ++ text ++ " ") = .ok [again] ∧ again.datum = form.datum := by
  obtain ⟨tokens, scans, assembles⟩ := readOne_eq_iff.mp reads
  -- The blank in front moves all tokens on by one place.
  obtain ⟨moved, scans, same⟩ := scans.exists_moved (Place.origin.after ' ')
  obtain ⟨others, assembles, data⟩ := assembles.exists_moved same
  obtain ⟨again, rfl, datum⟩ := List.map_eq_singleton_iff.mp data
  refine ⟨again, readAll_eq_iff.mpr ⟨moved, ?_, assembles⟩, datum⟩
  have padded : (" " ++ text ++ " ").toList = ' ' :: (text.toList ++ [' ']) := by simp
  rw [padded]
  exact .blank (by decide) scans.concat_blank

end Source

/-! ### Code with forms in it -/

/-- The printed text of the form is read as the form itself, spans aside. -/
def Form.ReadsBack (form : Form) : Prop :=
  ∃ again, Source.readOne form.text = .ok again ∧ again.datum = form.datum

/-- Native code in which forms are interpolated, each with the code behind it. -/
def interpolated (lead : String) : List (Form × String) → String
  | [] => lead
  | (form, code) :: parts => lead ++ ("~\x7b " ++ form.text ++ " \x7d" ++ interpolated code parts)

/-- Items with code before, between and behind them. Empty code is left out. -/
def weave (code : String → α) (lead : String) : List (α × String) → List α
  | [] => if lead = "" then [] else [code lead]
  | (item, next) :: parts => (if lead = "" then [] else [code lead]) ++ item :: weave code next parts

/-- The interpolation of a form with a blank on each side. -/
def Form.interpolation (form : Form) : Piece := .interpolation (" " ++ form.text ++ " ")

/-- The pieces that the code is written from. -/
def piecesOf (lead : String) (parts : List (Form × String)) : List Piece :=
  weave .code lead (parts.map (Prod.map Form.interpolation id))

/-- The chunks that expressions make up with the code around them. -/
def chunksOf (lead : String) (codes : List String) (exprs : List Expr) : List (Chunk Expr) :=
  weave .code lead ((exprs.map .expr).zip codes)

namespace Piece

/-- Code may stand before an interpolation, unless it is empty. -/
theorem splits_lead {lead inner rest : String} {pieces : List Piece}
    (plain : ¬ marker <:+: lead.toList) :
    Splits (lead ++ ((interpolation inner).text ++ rest))
        ((if lead = "" then [] else [code lead]) ++ interpolation inner :: pieces) ↔
      Balanced inner ∧ Splits rest pieces := by
  split
  next empty => rw [empty, String.empty_append, List.nil_append, splits_interpolation]
  next filled =>
    rw [List.singleton_append, splits_code, splits_interpolation]
    refine ⟨fun held => held.2.2, fun held => ⟨⟨filled, plain⟩, ?_, held⟩⟩
    rintro _ ⟨⟩ inside
    exact inside

/-- The pieces that native code is written from are its pieces if all printed forms are balanced. -/
theorem splits_interpolated {lead : String} {parts : List (Form × String)}
    (plain : ∀ code ∈ lead :: parts.map Prod.snd, ¬ marker <:+: code.toList) :
    Splits (interpolated lead parts) (piecesOf lead parts) ↔
      ∀ part ∈ parts, Balanced part.1.text := by
  induction parts generalizing lead with
  | nil =>
    have alone := splits_plain (plain lead (List.mem_cons_self ..))
    rw [flush_reverse, String.ofList_toList] at alone
    simpa [interpolated, piecesOf, weave] using alone
  | cons part parts ih =>
    obtain ⟨form, code⟩ := part
    obtain ⟨first, later⟩ := List.forall_mem_cons.mp plain
    have written : interpolated lead ((form, code) :: parts) =
        lead ++ (form.interpolation.text ++ interpolated code parts) := by
      simp [interpolated, Form.interpolation, Piece.text, ← String.toList_inj]
    have listed : piecesOf lead ((form, code) :: parts) =
        (if lead = "" then [] else [.code lead]) ++ form.interpolation :: piecesOf code parts := rfl
    rw [written, listed, List.forall_mem_cons, Form.interpolation, splits_lead first, ih later,
      balanced_padded]

end Piece

/-! ### Forms that differ in their spans -/

theorem Form.Alike.of_datum {form form' : Form} (same : form'.datum = form.datum) :
    form.Alike (fun part part' => part'.datum = part.datum) form' := by
  cases form with
  | atom value span =>
    cases form' with
    | atom value' span' =>
      cases Datum.atom.inj same
      exact .atom _ _ _
    | seq => cases same
    | map => cases same
  | seq shape items span =>
    cases form' with
    | atom => cases same
    | seq shape' items' span' =>
      obtain ⟨rfl, data⟩ := Datum.seq.inj same
      rw [data_eq_map, data_eq_map, ← List.forall₂_eq_eq_eq, List.forall₂_map_left_iff,
        List.forall₂_map_right_iff] at data
      exact .seq _ span span' data.flip
    | map => cases same
  | map entries span =>
    cases form' with
    | atom => cases same
    | seq => cases same
    | map entries' span' =>
      have data := Datum.map.inj same
      rw [entryData_eq_map, entryData_eq_map, ← List.forall₂_eq_eq_eq, List.forall₂_map_left_iff,
        List.forall₂_map_right_iff] at data
      refine .map span span' (data.flip.imp fun entry entry' held => ?_)
      obtain ⟨keys, values⟩ := Prod.mk.inj held
      exact .mk keys values

/-- Forms with the same datum are alike. -/
def Resemblance.spanless : Resemblance := ⟨fun form form' => form'.datum = form.datum, .of_datum⟩

namespace Standard

/-- Items that are alike have the same data. -/
theorem data_eq {items items' : List Form}
    (like : List.Forall₂ Resemblance.spanless.Like items items') :
    Form.data items' = Form.data items := by
  induction like with
  | nil => rfl
  | cons first _ ih => rw [Form.data, Form.data, ih, show _ = _ from first]

theorem arguments_alike {call call' : Form} (like : Resemblance.spanless.Like call call') :
    List.Forall₂ Resemblance.spanless.Like (Expander.arguments call) (Expander.arguments call') := by
  have lists := Resemblance.spanless.list? like
  unfold Expander.arguments
  generalize call.list? = listed, call'.list? = listed' at lists
  cases lists with
  | none => exact .nil
  | some items => exact (forall₂_head_tail items).2

theorem headed_alike {span span' : Span} {items items' : List Form} (head : String)
    (like : List.Forall₂ Resemblance.spanless.Like items items') :
    Resemblance.spanless.Like (headed span head items) (headed span' head items') := by
  change (headed span' head items').datum = (headed span head items).datum
  rw [headed, headed, Form.datum, Form.datum, Form.data, Form.data, data_eq like]
  rfl

/-- The standard macros do not look at spans. -/
theorem expander_agrees {name : String} {expander : Expander} (standard : (name, expander) ∈ macros)
    {call call' : Form} (like : Resemblance.spanless.Like call call') :
    Agree Resemblance.spanless.Like (expander call) (expander call') := by
  have given := arguments_alike like
  simp only [macros, List.mem_cons, List.not_mem_nil, or_false, Prod.mk.injEq] at standard
  rcases standard with ⟨_, rfl⟩ | ⟨_, rfl⟩ | ⟨_, rfl⟩ | ⟨_, rfl⟩ | ⟨_, rfl⟩
  · unfold expandWhen
    generalize Expander.arguments call = args, Expander.arguments call' = args' at given
    cases given with
    | nil => exact .error _ _
    | cons condition body =>
      exact .ok (headed_alike "if" (.cons condition (.cons (headed_alike "do" body) .nil)))
  · unfold expandUnless
    generalize Expander.arguments call = args, Expander.arguments call' = args' at given
    cases given with
    | nil => exact .error _ _
    | cons condition body =>
      exact .ok (headed_alike "when" (.cons (headed_alike "nil?" (.cons condition .nil)) body))
  · unfold expandDefn
    generalize Expander.arguments call = args, Expander.arguments call' = args' at given
    cases given with
    | nil => exact .error _ _
    | cons name rest =>
      refine .ok (headed_alike "def" (.cons name (.cons ?_ .nil)))
      exact headed_alike "fn*" (.cons name rest)
  · exact .ok (headed_alike "if" .nil)
  · exact .error _ _

/-- Whatever comes of the standard namespaces takes forms with the same datum to be alike. -/
def resemblance : Resemblance.For Namespaces.host namespaces where
  toResemblance := .spanless
  expand := by
    intro call call' world reached like
    have kept := kept_of_reaches reached
    have agree : Agree Resemblance.spanless.Like (world.expandOnce call) (world.expandOnce call') := by
      unfold Namespaces.expandOnce
      rw [Resemblance.spanless.head?_eq like]
      split
      -- A macro that is found at all is one of the standard macros.
      next expander found =>
        obtain ⟨symbol, _, held⟩ := Option.bind_eq_some_iff.mp found
        refine expander_agrees (kept.macros (world.qualify symbol) expander ?_) like
        exact Option.join_eq_some_iff.mpr held
      next => exact .ok like
    change Replied _ (match world.expandOnce call with
      | .ok expansion => .ok expansion world
      | .error diagnostic => .error diagnostic world) (match world.expandOnce call' with
      | .ok expansion => .ok expansion world
      | .error diagnostic => .error diagnostic world)
    generalize world.expandOnce call = answer, world.expandOnce call' = answer' at agree
    cases agree with
    | ok related => exact .ok related world
    | error diagnostic diagnostic' => exact .error diagnostic diagnostic' world
  read := by
    intro whole span span' world text reached _
    have reader := (kept_of_reaches reached).reader
    simp only [Namespaces.host, Namespaces.readFragment, reader, readFragment]
    cases Source.readAll text with
    | ok forms =>
      have same : List.Forall₂ Resemblance.spanless.Like forms forms :=
        List.forall₂_same.mpr fun _ _ => rfl
      exact .ok same world
    | error error => exact .error _ _ world

end Standard

/-! ### The analysis of native code -/

open AnalysisM

/-- A form that reads back is read from its interpolation, and nothing else changes. -/
theorem Form.ReadsBack.readInterpolation {form : Form} (back : form.ReadsBack) :
    ∃ again, again.datum = form.datum ∧
      (∀ span, Standard.readFragment (" " ++ form.text ++ " ") span = .ok [again]) ∧
      ∀ (config : Config) (span : Span) (state : State Namespaces),
        state.world.reader = some Standard.readFragment →
        readInterpolation ⟨Namespaces.host, config⟩ (" " ++ form.text ++ " ") span state =
          .ok again state := by
  obtain ⟨own, reads, same⟩ := back
  obtain ⟨again, padded, datum⟩ := Source.readAll_padded reads
  have read (span : Span) : Standard.readFragment (" " ++ form.text ++ " ") span = .ok [again] := by
    rw [Standard.readFragment, padded]
    rfl
  refine ⟨again, datum.trans same, read, fun config span state reader => ?_⟩
  have asked : Namespaces.host.readFragment (" " ++ form.text ++ " ") span state.world =
      .ok [again] state.world := by
    simp only [Namespaces.host, Namespaces.readFragment, reader, read]
  exact tryHost_bind_of_ok asked

/-- Expressions in native code with the given code around them, which match others. -/
def Recovers (lead : String) (codes : List String) (exprs : List Expr) (chunks : List (Chunk Expr)) :
    Prop :=
  ∃ others, List.Forall₂ Expr.Matches exprs others ∧ chunks = chunksOf lead codes others

section

variable {config : Config} {self : Recursion Namespaces} {cx : Context} {tree : FrameTree} {span : Span}
  {first : AnalysisM Namespaces (List Expr)} {R : FrameTree → List Expr → List (Chunk Expr) → Prop}

/-- Code before some pieces is put before their chunks. -/
theorem Tandem.lead {pieces : List Piece}
    (steps : Tandem Namespaces.host Standard.namespaces tree R first
      (analyzePieces ⟨Namespaces.host, config⟩ self cx span pieces)) (lead : String) :
    Tandem Namespaces.host Standard.namespaces tree
      (fun after exprs chunks => ∃ rest, R after exprs rest ∧
        chunks = (if lead = "" then [] else [.code lead]) ++ rest) first
      (analyzePieces ⟨Namespaces.host, config⟩ self cx span
        ((if lead = "" then [] else [.code lead]) ++ pieces)) := by
  split
  · exact steps.imp fun _ _ chunks _ held => ⟨chunks, held, rfl⟩
  · have alone : first = first >>= Pure.pure := by simp
    rw [alone]
    exact .bind steps fun _ _ chunks _ held => .pure ⟨chunks, held, rfl⟩

/-- An interpolated form is read, which leaves the state alone, and then analyzed. -/
theorem Tandem.interpolation {form : Form} {pieces : List Piece} (back : form.ReadsBack)
    (steps : ∀ again, Standard.resemblance.Like form again →
      Tandem Namespaces.host Standard.namespaces tree R first
        (do
          let value ← self cx.operand again
          let chunks ← analyzePieces ⟨Namespaces.host, config⟩ self cx span pieces
          return .expr value :: chunks)) :
    Tandem Namespaces.host Standard.namespaces tree R first
      (analyzePieces ⟨Namespaces.host, config⟩ self cx span (form.interpolation :: pieces)) := by
  obtain ⟨again, same, _, reads⟩ := back.readInterpolation
  intro before before' states here
  have reader : before'.world.reader = some Standard.readFragment := by
    rw [states.world]
    exact (Standard.kept_of_reaches states.reached).reader
  have read : analyzePieces ⟨Namespaces.host, config⟩ self cx span (form.interpolation :: pieces)
      before' = (do
        let value ← self cx.operand again
        let chunks ← analyzePieces ⟨Namespaces.host, config⟩ self cx span pieces
        return .expr value :: chunks : AnalysisM Namespaces (List (Chunk Expr))) before' :=
    bind_of_ok (reads config span before' reader)
  rw [read]
  exact steps again same before before' states here

/-- The pieces that native code is written from are analyzed in tandem with the forms. -/
theorem analyzePieces_recovers (keeps : Keeps Standard.resemblance self self) {lead : String}
    {parts : List (Form × String)} (back : ∀ part ∈ parts, part.1.ReadsBack)
    (inRange : cx.operand.frame < tree.frames.size) :
    Tandem Namespaces.host Standard.namespaces tree (fun _ => Recovers lead (parts.map Prod.snd))
      (analyzeOperands self cx.operand (parts.map Prod.fst))
      (analyzePieces ⟨Namespaces.host, config⟩ self cx span (piecesOf lead parts)) := by
  induction parts generalizing lead tree with
  | nil =>
    have empty : Tandem Namespaces.host Standard.namespaces tree
        (fun _ (exprs : List Expr) (chunks : List (Chunk Expr)) => exprs = [] ∧ chunks = [])
        (analyzeOperands self cx.operand [])
        (analyzePieces ⟨Namespaces.host, config⟩ self cx span []) := .pure ⟨rfl, rfl⟩
    have whole := empty.lead lead
    rw [List.append_nil] at whole
    refine whole.imp ?_
    rintro _ _ _ _ ⟨_, ⟨rfl, rfl⟩, rfl⟩
    exact ⟨[], .nil, List.append_nil _⟩
  | cons part parts ih =>
    obtain ⟨form, code⟩ := part
    obtain ⟨here, later⟩ := List.forall_mem_cons.mp back
    have inner : Tandem Namespaces.host Standard.namespaces tree
        (fun _ exprs chunks => ∃ first others, List.Forall₂ Expr.Matches exprs (first :: others) ∧
          chunks = .expr first :: chunksOf code (parts.map Prod.snd) others)
        (analyzeOperands self cx.operand (form :: parts.map Prod.fst))
        (analyzePieces ⟨Namespaces.host, config⟩ self cx span
          (form.interpolation :: piecesOf code parts)) := by
      refine .interpolation here fun again like => ?_
      -- The form that was read back is alike, so its analysis goes on in tandem with that of the form.
      refine .bind (keeps inRange like) fun between _ first builds held => ?_
      refine .bind (ih later (Nat.lt_of_lt_of_le inRange builds.size)) ?_
      rintro after _ _ _ ⟨others, matching, rfl⟩
      exact .pure ⟨first, others, .cons held matching, rfl⟩
    refine (inner.lead lead).imp ?_
    rintro _ _ _ _ ⟨_, ⟨first, others, matching, rfl⟩, rfl⟩
    exact ⟨first :: others, matching, rfl⟩

end

/-- The call `(native/raw "text")`. -/
def nativeCall (text : String) (place textSpan span : Span) : Form :=
  .list [.symbol (.qualified "native" "raw") place, .atom (.string text) textSpan] span

/-- Native code is written from code without markers and from forms that read back from their printed
texts. It is split into the same code and the texts of the same forms if and only if the braces of
every printed form are balanced, for which it is enough that those of its atoms are. The reader makes
of each text a single form, which is the one that was written, spans aside. If the printed forms are
balanced and can be analyzed one after the other, then the native code is analyzed to the same
expressions in their order, with the code around them. -/
theorem analyzeNative_recovers (config : Config) (depth : Nat) (cx : Context)
    (state : State Namespaces) (lead : String) (parts : List (Form × String))
    (place textSpan span : Span)
    (placed : Moment.Placed Namespaces.host Standard.namespaces
      ⟨cx, nativeCall (interpolated lead parts) place textSpan span, state⟩)
    (plain : ∀ code ∈ lead :: parts.map Prod.snd, ¬ Piece.marker <:+: code.toList)
    (back : ∀ part ∈ parts, part.1.ReadsBack) :
    (Piece.split? (interpolated lead parts) = some (piecesOf lead parts) ↔
      ∀ part ∈ parts, Piece.Balanced part.1.text) ∧
    (∀ part ∈ parts,
      ((∀ value, part.1.datum.Contains value → Piece.Balanced value.text) →
        Piece.Balanced part.1.text) ∧
      ∃ again, again.datum = part.1.datum ∧ ∀ span,
        Standard.readFragment (" " ++ part.1.text ++ " ") span = .ok [again]) ∧
    ((∀ part ∈ parts, Piece.Balanced part.1.text) → ∀ exprs after,
      analyzeOperands (analyzeForm ⟨Namespaces.host, config⟩ depth) cx.operand (parts.map Prod.fst)
        state = .ok exprs after →
      ∃ others after', List.Forall₂ Expr.Matches exprs others ∧
        after.Matches Namespaces.host Standard.namespaces after' ∧
        analyzeForm ⟨Namespaces.host, config⟩ (depth + 1) cx
          (nativeCall (interpolated lead parts) place textSpan span) state =
            .ok (cx.expr (.native (chunksOf lead (parts.map Prod.snd) others)) span) after') := by
  have splits := Piece.splits_interpolated plain
  rw [← Piece.split?_eq_some_iff] at splits
  refine ⟨splits, fun part member => ⟨Piece.balanced_text, ?_⟩, fun balanced exprs after given => ?_⟩
  · obtain ⟨again, same, read, _⟩ := (back part member).readInterpolation
    exact ⟨again, same, read⟩
  · have keeps : Keeps Standard.resemblance (analyzeForm ⟨Namespaces.host, config⟩ depth) _ :=
      analyzeForm_tandem config depth
    have tandem : Tandem Namespaces.host Standard.namespaces state.tree _ _
        (analyzePieces ⟨Namespaces.host, config⟩ _ cx textSpan (piecesOf lead parts)) :=
      analyzePieces_recovers keeps back placed.inRange
    have finish := tandem state state (.refl placed.reached placed.built) rfl
    have opened : analyzeForm ⟨Namespaces.host, config⟩ (depth + 1) cx
        (nativeCall (interpolated lead parts) place textSpan span) state =
          (analyzePieces ⟨Namespaces.host, config⟩ (analyzeForm ⟨Namespaces.host, config⟩ depth) cx
            textSpan (piecesOf lead parts) >>= fun chunks =>
              pure (cx.expr (.native chunks) span)) state := by
      change analyzeNative ⟨Namespaces.host, config⟩ _ cx
        [.atom (.string (interpolated lead parts)) textSpan] span state = _
      simp only [analyzeNative, splits.mpr balanced]
    rw [given] at finish
    generalize run : analyzePieces _ _ _ _ _ _ = result at finish
    cases finish with
    | ok states builds related =>
      obtain ⟨others, matching, rfl⟩ := related
      refine ⟨others, _, matching, states, ?_⟩
      rw [opened, bind_of_ok run]
      rfl

/-- The map of one entry from `:a` to `1`. -/
def braced : Form :=
  .map [(.atom (.keyword (.simple "a")) .synthetic, .atom (.int 1) .synthetic)] .synthetic

/-- A string in which a brace is closed that was not opened. -/
def unbalanced : Form := .atom (.string "\x7d") .synthetic

/-- `braced` is recovered from native code. `unbalanced` is not: it reads back and can be analyzed, but
native code in which it is interpolated is split at its brace and refused. -/
theorem braced_recovers :
    (∃ exprs after others after',
      analyzeOperands (analyzeForm ⟨Namespaces.host, .standard⟩ 9) .topLevel [braced]
        ⟨Standard.namespaces, .initial, .initial, []⟩ = .ok exprs after ∧
      List.Forall₂ Expr.Matches exprs others ∧
      analyzeForm ⟨Namespaces.host, .standard⟩ 10 .topLevel
        (nativeCall "int x = ~\x7b \x7b:a 1\x7d \x7d; " .synthetic .synthetic .synthetic)
        ⟨Standard.namespaces, .initial, .initial, []⟩ =
          .ok (Context.topLevel.expr (.native (chunksOf "int x = " ["; "] others)) .synthetic) after') ∧
    unbalanced.ReadsBack ∧
    (∃ expr after, analyzeForm ⟨Namespaces.host, .standard⟩ 9 .topLevel unbalanced
      ⟨Standard.namespaces, .initial, .initial, []⟩ = .ok expr after) ∧
    Piece.split? (interpolated "" [(unbalanced, "")]) ≠ some (piecesOf "" [(unbalanced, "")]) ∧
    ∃ halt after, analyzeForm ⟨Namespaces.host, .standard⟩ 10 .topLevel
      (nativeCall (interpolated "" [(unbalanced, "")]) .synthetic .synthetic .synthetic)
      ⟨Standard.namespaces, .initial, .initial, []⟩ = .error halt after := by
  have placed (form : Form) : Moment.Placed Namespaces.host Standard.namespaces
      ⟨.topLevel, form, ⟨Standard.namespaces, .initial, .initial, []⟩⟩ := ⟨.start, .refl _, Nat.one_pos⟩
  have back : braced.ReadsBack := ⟨_, rfl, rfl⟩
  have back' : unbalanced.ReadsBack := ⟨_, rfl, rfl⟩
  have balanced : Piece.Balanced braced.text := by
    rw [Piece.balanced_iff]
    change Piece.Closes 0 ['{', ':', 'a', ' ', '1', '}']
    simp [Piece.closes_cons, Piece.closes_nil]
  have lost : ¬ Piece.Balanced unbalanced.text := by
    rw [Piece.balanced_iff]
    change ¬ Piece.Closes 0 ['"', '}', '"']
    simp [Piece.closes_cons]
  obtain ⟨_, _, recovers⟩ := analyzeNative_recovers .standard 9 .topLevel
    ⟨Standard.namespaces, .initial, .initial, []⟩ "int x = " [(braced, "; ")] .synthetic .synthetic
    .synthetic (placed _) (by decide) (by simpa using back)
  obtain ⟨splits, _⟩ := analyzeNative_recovers .standard 9 .topLevel
    ⟨Standard.namespaces, .initial, .initial, []⟩ "" [(unbalanced, "")] .synthetic .synthetic
    .synthetic (placed _) (by decide) (by simpa using back')
  -- Could the code be split into its pieces, then the string would be balanced.
  have missed := fun split => lost (splits.mp split _ (List.mem_singleton_self _))
  refine ⟨?_, back', ⟨_, _, rfl⟩, missed, ⟨_, _, rfl⟩⟩
  have analyzed : ∃ exprs after, analyzeOperands (analyzeForm ⟨Namespaces.host, .standard⟩ 9) .topLevel
      [braced] ⟨Standard.namespaces, .initial, .initial, []⟩ = .ok exprs after := ⟨_, _, rfl⟩
  obtain ⟨exprs, after, given⟩ := analyzed
  obtain ⟨others, after', matching, _, run⟩ := recovers (by simpa using balanced) exprs after given
  exact ⟨exprs, after, others, after', given, matching, run⟩

end LispScope
