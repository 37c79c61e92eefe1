import LispScope.Proofs.Grammar
import LispScope.Proofs.Shape

/-!
# What spans cut out of a text

Main statement: `readAll_cuts`. The span of every form that is read from a text cuts out of the text
what reads back as the form, spans aside; forms that stand side by side follow each other, inside the
form around them. The symbol of a quote mark has no text of its own and stands at the mark.

The tokens of a form stand side by side in the tokens of the text. Their text is a piece of the text,
which has the same tokens when it is scanned by itself, except that their places are counted from its
beginning; and what the tokens make up depends on the places in the spans only.
-/
namespace LispScope

/-! ### Spans that stand side by side -/

/-- Spans follow each other between two offsets, and none of them is empty. -/
structure Spread (low high : Nat) (spans : List Span) : Prop where
  bounds : low ≤ high
  ordered : spans.Pairwise fun first second => first.stop ≤ second.start
  between : ∀ span ∈ spans, low ≤ span.start ∧ span.start < span.stop ∧ span.stop ≤ high

namespace Spread

variable {low high : Nat} {span : Span} {spans others : List Span}

theorem nil (bounds : low ≤ high) : Spread low high [] := ⟨bounds, .nil, nofun⟩

theorem cons_iff : Spread low high (span :: spans) ↔
    low ≤ span.start ∧ span.start < span.stop ∧ Spread span.stop high spans := by
  constructor
  · rintro ⟨_, ordered, between⟩
    obtain ⟨first, ordered⟩ := List.pairwise_cons.mp ordered
    obtain ⟨above, inhabited, below⟩ := between span (List.mem_cons_self ..)
    refine ⟨above, inhabited, below, ordered, fun other member => ⟨first other member, ?_⟩⟩
    exact (between other (List.mem_cons_of_mem _ member)).2
  · rintro ⟨above, inhabited, below, ordered, between⟩
    refine ⟨by omega, ?_, fun other member => ?_⟩
    · exact List.pairwise_cons.mpr ⟨fun other member => (between other member).1, ordered⟩
    · rcases List.mem_cons.mp member with rfl | member
      · exact ⟨above, inhabited, below⟩
      · obtain ⟨after, rest⟩ := between other member
        exact ⟨by omega, rest⟩

theorem widen {lower higher : Nat} (spread : Spread low high spans) (below : lower ≤ low)
    (above : high ≤ higher) : Spread lower higher spans := by
  obtain ⟨bounds, ordered, between⟩ := spread
  refine ⟨by omega, ordered, fun span member => ?_⟩
  obtain ⟨first, inhabited, last⟩ := between span member
  omega

theorem split (spread : Spread low high (spans ++ others)) :
    ∃ middle, Spread low middle spans ∧ Spread middle high others := by
  induction spans generalizing low with
  | nil => exact ⟨low, .nil (le_refl low), spread⟩
  | cons span spans ih =>
    obtain ⟨above, inhabited, rest⟩ := cons_iff.mp spread
    obtain ⟨middle, first, second⟩ := ih rest
    exact ⟨middle, cons_iff.mpr ⟨above, inhabited, first⟩, second⟩

end Spread

namespace Source

/-! ### Texts and bytes -/

namespace Place

@[simp] theorem offset_after (place : Place) (c : Char) :
    (place.after c).offset = place.offset + c.utf8Size := by
  unfold after
  split <;> rfl

theorem offset_past (place : Place) (text : List Char) :
    (place.past text).offset = place.offset + (String.ofList text).utf8ByteSize := by
  induction text generalizing place with
  | nil => rfl
  | cons c text ih =>
    rw [past_cons, ih, offset_after]
    rw [String.utf8ByteSize_ofList, String.utf8ByteSize_ofList, String.utf8Len_cons]
    omega

theorem offset_le_past (place : Place) (text : List Char) :
    place.offset ≤ (place.past text).offset := by
  rw [offset_past]
  omega

theorem offset_lt_past (place : Place) {text : List Char} (inhabited : text ≠ []) :
    place.offset < (place.past text).offset := by
  obtain ⟨c, rest, rfl⟩ := List.exists_cons_of_ne_nil inhabited
  have below := (place.after c).offset_le_past rest
  have size := c.utf8Size_pos
  rw [offset_after] at below
  rw [past_cons]
  omega

end Place

variable {place : Place} {text : List Char} {token first last : Token} {tokens own rest : List Token}
  {form sub : Form} {forms : List Form}

/-- The tokens of a text stand side by side in it. -/
theorem Scans.spread (scans : Scans place text tokens) :
    Spread place.offset (place.past text).offset (tokens.map Token.span) := by
  induction scans with
  | done => exact .nil (le_refl _)
  | blank _ _ ih => exact ih.widen (by simp) (le_refl _)
  | remark _ _ _ ih =>
    rw [← List.cons_append, Place.past_append]
    exact ih.widen (Place.offset_le_past ..) (le_refl _)
  | token spells _ _ ih =>
    rw [Place.past_append]
    have inhabited := Place.offset_lt_past ‹Place› spells.ne_nil
    exact Spread.cons_iff.mpr ⟨le_refl _, inhabited, ih⟩

/-- Something leads to each of the tokens of a text, and then comes its spelling. -/
theorem Scans.exists_spelled (scans : Scans place text (own ++ token :: rest)) :
    ∃ lead spelled isOpen remaining, text = lead ++ (spelled ++ remaining) ∧
      Spells token.lexeme spelled isOpen ∧
      token.span = (place.past lead).spanTo ((place.past lead).past spelled).offset ∧
      Scans (place.past lead) (spelled ++ remaining) (token :: rest) := by
  generalize all : own ++ token :: rest = tokens at scans
  induction scans generalizing own with
  | done => simp at all
  | @blank place c text _ _ _ ih =>
    obtain ⟨lead, spelled, isOpen, remaining, rfl, found⟩ := ih all
    exact ⟨c :: lead, spelled, isOpen, remaining, rfl, found⟩
  | @remark place remark text _ _ _ _ ih =>
    obtain ⟨lead, spelled, isOpen, remaining, rfl, found⟩ := ih all
    refine ⟨';' :: (remark ++ lead), spelled, isOpen, remaining, by simp, ?_⟩
    rw [← List.cons_append, Place.past_append]
    exact found
  | @token place lexeme first text isOpen tokens spells ends scans ih =>
    cases own with
    | nil =>
      obtain ⟨rfl, rfl⟩ := List.cons.inj all
      exact ⟨[], first, isOpen, text, rfl, spells, rfl, .token spells ends scans⟩
    | cons _ own =>
      obtain ⟨lead, spelled, isOpen, remaining, rfl, found⟩ := ih (List.cons.inj all).2
      refine ⟨first ++ lead, spelled, isOpen, remaining, by simp, ?_⟩
      rw [Place.past_append]
      exact found

/-- A text can be ended after each of its tokens. -/
theorem Scans.exists_piece (scans : Scans place text (own ++ rest)) (ending : own.getLast? = some last) :
    ∃ piece remaining, text = piece ++ remaining ∧ piece ≠ [] ∧ Scans place piece own ∧
      last.span.stop = (place.past piece).offset := by
  generalize all : own ++ rest = tokens at scans
  induction scans generalizing own with
  | done =>
    obtain ⟨rfl, rfl⟩ := List.append_eq_nil_iff.mp all
    cases ending
  | @blank place c text _ blank _ ih =>
    obtain ⟨piece, remaining, rfl, _, scans, stops⟩ := ih ending all
    exact ⟨c :: piece, remaining, rfl, List.cons_ne_nil _ _, .blank blank scans, stops⟩
  | @remark place remark text _ inside ends _ ih =>
    obtain ⟨piece, remaining, rfl, inhabited, scans, stops⟩ := ih ending all
    refine ⟨';' :: (remark ++ piece), remaining, by simp, List.cons_ne_nil _ _, ?_, ?_⟩
    · -- The piece begins with the line feed that ends the remark.
      refine .remark inside (fun c first => ends c ?_) scans
      rw [List.head?_append_of_ne_nil _ inhabited]
      exact first
    · rw [← List.cons_append, Place.past_append]
      exact stops
  | @token place lexeme spelled text isOpen tokens spells ends scans ih =>
    cases own with
    | nil => cases ending
    | cons token own =>
      obtain ⟨rfl, others⟩ := List.cons.inj all
      cases own with
      | nil =>
        obtain rfl := Option.some.inj ending
        have alone := @Scans.token place _ _ _ _ _ spells (fun _ => .nil) .done
        exact ⟨spelled, text, rfl, spells.ne_nil, by simpa using alone, rfl⟩
      | cons next own =>
        rw [List.getLast?_cons_cons] at ending
        obtain ⟨piece, remaining, rfl, inhabited, scans, stops⟩ := ih ending others
        refine ⟨spelled ++ piece, remaining, by simp, by simp [inhabited], .token spells ?_ scans, ?_⟩
        · -- What follows the token in the piece follows it in the text, so it ends a word too.
          intro isOpen c first
          apply ends isOpen
          rw [List.head?_append_of_ne_nil _ inhabited]
          exact first
        · rw [Place.past_append]
          exact stops

/-! ### Places counted from another beginning -/

/-- Where a place of a text comes to stand if something leads to the text. Columns are moved in the
first line only. -/
def Place.behind (place lead : Place) : Place where
  offset := lead.offset + place.offset
  line := lead.line + place.line - 1
  col := if place.line = 1 then lead.col + place.col - 1 else place.col

/-- Lines and columns are counted from one. -/
def Place.IsCounted (place : Place) : Prop := 1 ≤ place.line ∧ 1 ≤ place.col

end Source

/-- The span of the same piece of a text if something leads to the text. -/
def Span.behind (span : Span) (lead : Source.Place) : Span :=
  { span with
    start := lead.offset + span.start
    stop := lead.offset + span.stop
    line := lead.line + span.line - 1
    col := if span.line = 1 then lead.col + span.col - 1 else span.col }

namespace Form

mutual

/-- The form with all its spans changed. -/
def mapSpans (f : Span → Span) : Form → Form
  | atom value span => .atom value (f span)
  | seq shape items span => .seq shape (mapAllSpans f items) (f span)
  | map entries span => .map (mapEntrySpans f entries) (f span)
termination_by structural form => form

def mapAllSpans (f : Span → Span) : List Form → List Form
  | [] => []
  | item :: items => item.mapSpans f :: mapAllSpans f items
termination_by structural items => items

def mapEntrySpans (f : Span → Span) : List (Form × Form) → List (Form × Form)
  | [] => []
  | (key, value) :: entries => (key.mapSpans f, value.mapSpans f) :: mapEntrySpans f entries
termination_by structural entries => entries

end

theorem mapAllSpans_eq_map (f : Span → Span) (items : List Form) :
    mapAllSpans f items = items.map (mapSpans f) := by
  induction items with
  | nil => rfl
  | cons item items ih => rw [mapAllSpans, ih, List.map_cons]

theorem mapEntrySpans_eq_map (f : Span → Span) (entries : List (Form × Form)) :
    mapEntrySpans f entries = entries.map (Prod.map (mapSpans f) (mapSpans f)) := by
  induction entries with
  | nil => rfl
  | cons entry entries ih =>
    obtain ⟨key, value⟩ := entry
    rw [mapEntrySpans, ih]
    rfl

theorem span_mapSpans (f : Span → Span) (form : Form) : (form.mapSpans f).span = f form.span := by
  cases form <;> rfl

theorem pairs?_map (f : Form → Form) (items : List Form) :
    pairs? (items.map f) = (pairs? items).map (List.map (Prod.map f f)) := by
  fun_induction pairs? items with
  | case1 => rfl
  | case2 => rfl
  | case3 first second rest ih =>
    rw [List.map_cons, List.map_cons, pairs?, ih]
    simp [Function.comp_def]

end Form

namespace Source

namespace Place

theorem IsCounted.past {place : Place} (counted : place.IsCounted) (text : List Char) :
    (place.past text).IsCounted := by
  induction text generalizing place with
  | nil => exact counted
  | cons c text ih =>
    apply ih
    obtain ⟨line, col⟩ := counted
    unfold after
    split
    · exact ⟨by simp, by simp⟩
    · exact ⟨line, by simp⟩

theorem after_behind {place : Place} (counted : place.IsCounted) (lead : Place) (c : Char) :
    (place.behind lead).after c = (place.after c).behind lead := by
  obtain ⟨line, col⟩ := counted
  unfold after behind
  split
  · simp; omega
  · simp
    split <;> omega

theorem past_behind {place : Place} (counted : place.IsCounted) (lead : Place) (text : List Char) :
    (place.behind lead).past text = (place.past text).behind lead := by
  induction text generalizing place with
  | nil => rfl
  | cons c text ih =>
    rw [past_cons, past_cons, after_behind counted]
    exact ih (counted.past [c])

end Place

/-- The token at the same piece of a text if something leads to the text. -/
def Token.behind (token : Token) (lead : Place) : Token := ⟨token.lexeme, token.span.behind lead⟩

/-- A text has the same tokens wherever it begins. -/
theorem Scans.of_behind {lead : Place} (counted : place.IsCounted)
    (scans : Scans (place.behind lead) text tokens) :
    ∃ own, Scans place text own ∧ tokens = own.map (·.behind lead) := by
  generalize begins : place.behind lead = start at scans
  induction scans generalizing place with
  | done => exact ⟨[], .done, rfl⟩
  | @blank _ c _ _ blank _ ih =>
    subst begins
    obtain ⟨own, scans, rfl⟩ := ih (counted.past [c]) (Place.after_behind counted lead c).symm
    exact ⟨own, .blank blank scans, rfl⟩
  | remark inside ends _ ih =>
    subst begins
    obtain ⟨own, scans, rfl⟩ := ih (counted.past _) (Place.past_behind counted lead _).symm
    exact ⟨own, .remark inside ends scans, rfl⟩
  | @token _ lexeme spelled _ _ _ spells ends _ ih =>
    subst begins
    obtain ⟨own, scans, rfl⟩ := ih (counted.past _) (Place.past_behind counted lead _).symm
    refine ⟨_, .token spells ends scans, ?_⟩
    rw [Place.past_behind counted]
    rfl

theorem Assembly.close_mapSpans (f : Span → Span) (opener : Opener) (items : List Form) (span : Span) :
    close opener (items.map (Form.mapSpans f)) (f span) =
      (close opener items span).map (Form.mapSpans f) := by
  cases opener with
  | seq shape => simp [close, Form.mapSpans, Form.mapAllSpans_eq_map, Except.map]
  | map =>
    simp only [close, Form.pairs?_map]
    cases Form.pairs? items with
    | none => rfl
    | some entries => simp [Form.mapSpans, Form.mapEntrySpans_eq_map, Except.map]

theorem Assembly.of_close {opener : Opener} {items : List Form} {span : Span}
    (closes : close opener items span = .ok form) : form.span = span ∧ form.items = items := by
  unfold close at closes
  split at closes
  · obtain rfl := Except.ok.inj closes
    exact ⟨rfl, rfl⟩
  · split at closes
    · obtain rfl := Except.ok.inj closes
      exact ⟨rfl, flatMap_of_pairs? ‹_›⟩
    · cases closes

/-- Tokens make up the same forms wherever they stand. -/
theorem Assembles.of_behind {lead : Place} (assembles : Assembles (tokens.map (·.behind lead)) forms) :
    ∃ own, Assembles tokens own ∧ forms = own.map (Form.mapSpans (·.behind lead)) := by
  generalize moved : tokens.map (·.behind lead) = others at assembles
  induction assembles generalizing tokens with
  | nil =>
    obtain rfl := List.map_eq_nil_iff.mp moved
    exact ⟨[], .nil, rfl⟩
  | atom _ ih =>
    obtain ⟨⟨_, span⟩, rest, rfl, head, moved⟩ := List.map_eq_cons_iff.mp moved
    obtain ⟨own, assembles, rfl⟩ := ih moved
    obtain ⟨rfl, rfl⟩ := Token.mk.inj head
    exact ⟨_, .atom assembles, rfl⟩
  | @collection opener _ _ _ _ _ _ _ _ closes _ inside ih =>
    obtain ⟨⟨_, opening⟩, others, rfl, head, moved⟩ := List.map_eq_cons_iff.mp moved
    obtain ⟨inner, others, rfl, within, moved⟩ := List.map_eq_append_iff.mp moved
    obtain ⟨⟨_, closing⟩, rest, rfl, bracket, moved⟩ := List.map_eq_cons_iff.mp moved
    obtain ⟨items, made, rfl⟩ := inside within
    obtain ⟨own, assembles, rfl⟩ := ih moved
    obtain ⟨rfl, rfl⟩ := Token.mk.inj head
    obtain ⟨rfl, rfl⟩ := Token.mk.inj bracket
    -- Whether the collection can be closed does not depend on places.
    have same := Assembly.close_mapSpans (·.behind lead) opener items { opening with stop := closing.stop }
    cases closed : Assembly.close opener items { opening with stop := closing.stop } with
    | error error =>
      rw [closed] at same
      cases same.symm.trans closes
    | ok form =>
      rw [closed] at same
      obtain rfl := Except.ok.inj (same.symm.trans closes)
      exact ⟨_, .collection made closed assembles, rfl⟩
  | quote _ _ quoted ih =>
    obtain ⟨⟨_, mark⟩, others, rfl, head, moved⟩ := List.map_eq_cons_iff.mp moved
    obtain ⟨inner, rest, rfl, within, moved⟩ := List.map_eq_append_iff.mp moved
    obtain ⟨items, inside, single⟩ := quoted within
    obtain ⟨own, assembles, rfl⟩ := ih moved
    obtain ⟨rfl, rfl⟩ := Token.mk.inj head
    obtain ⟨form, rfl, rfl⟩ := List.map_eq_singleton_iff.mp single.symm
    refine ⟨_, .quote inside assembles, ?_⟩
    simp only [Assembly.quoteForm, Form.mapSpans, Form.mapAllSpans_eq_map, List.map_cons,
      List.map_nil, Form.span_mapSpans]
    rfl

/-! ### The tokens of a form -/

theorem Assembles.eq_nil (assembles : Assembles tokens []) : tokens = [] := by
  cases assembles
  rfl

/-- A form reaches from its first token to its last one. -/
theorem Assembles.span_eq (assembles : Assembles tokens [form]) :
    ∃ first last, tokens.head? = some first ∧ tokens.getLast? = some last ∧
      form.span = { first.span with stop := last.span.stop } := by
  generalize single : [form] = forms at assembles
  induction assembles generalizing form with
  | nil => cases single
  | @atom value span _ _ rest _ =>
    obtain ⟨rfl, rfl⟩ := List.cons.inj single
    obtain rfl := rest.eq_nil
    exact ⟨⟨.atom value, span⟩, _, rfl, rfl, rfl⟩
  | @collection opener opening closing inner _ items _ _ _ closes rest _ _ =>
    obtain ⟨rfl, rfl⟩ := List.cons.inj single
    obtain rfl := rest.eq_nil
    refine ⟨⟨.opening opener, opening⟩, ⟨.closing opener.closer, closing⟩, rfl, ?_, ?_⟩
    · rw [← List.cons_append]
      exact List.getLast?_concat
    · exact (Assembly.of_close closes).1
  | @quote mark inner _ _ _ quoted rest within _ =>
    obtain ⟨rfl, rfl⟩ := List.cons.inj single
    obtain rfl := rest.eq_nil
    obtain ⟨first, last, starts, stops, span⟩ := within rfl
    refine ⟨⟨.quote, mark⟩, last, rfl, ?_, ?_⟩
    · rw [List.append_nil, List.getLast?_cons, stops]
      rfl
    · change { mark with stop := _ } = { mark with stop := _ }
      rw [span]

end Source

/-! ### Where forms stand -/

namespace Form

/-- The items of a form stand side by side in its span. -/
def IsSpread (form : Form) : Prop :=
  Spread form.span.start form.span.stop (form.items.map Form.span)

/-- A form is made of some of the tokens, or it is the symbol of a quote mark among them. -/
def StandsIn (form : Form) (tokens : List Source.Token) : Prop :=
  (∃ before own after, tokens = before ++ own ++ after ∧ Source.Assembles own [form]) ∨
    ∃ before mark after, tokens = before ++ ⟨.quote, mark⟩ :: after ∧
      form = .symbol (.simple "quote") mark

theorem StandsIn.widen {form : Form} {tokens : List Source.Token} (stands : form.StandsIn tokens)
    (before after : List Source.Token) : form.StandsIn (before ++ tokens ++ after) := by
  rcases stands with ⟨first, own, last, rfl, made⟩ | ⟨first, mark, last, rfl, same⟩
  · exact .inl ⟨before ++ first, own, last ++ after, by simp, made⟩
  · exact .inr ⟨before ++ first, mark, last ++ after, by simp, same⟩

end Form

namespace Source

variable {tokens own : List Token} {form sub : Form} {forms : List Form}

/-- Forms stand side by side as their tokens do, and so do the items of each form inside them. -/
theorem Assembles.spread {low high : Nat} (assembles : Assembles tokens forms)
    (spread : Spread low high (tokens.map Token.span)) :
    Spread low high (forms.map Form.span) ∧ Throughout Form.IsSpread forms := by
  induction assembles generalizing low high with
  | nil => exact ⟨spread, nofun⟩
  | atom _ ih =>
    obtain ⟨above, inhabited, rest⟩ := Spread.cons_iff.mp spread
    obtain ⟨spans, parts⟩ := ih rest
    exact ⟨Spread.cons_iff.mpr ⟨above, inhabited, spans⟩, .cons (.nil inhabited.le) nofun parts⟩
  | @collection opener opening closing inner tokens items forms form _ closes _ within ih =>
    obtain ⟨spanned, held⟩ := Assembly.of_close closes
    -- The items stand between the two brackets, the other forms after the second one.
    rw [List.map_cons, List.map_append, List.map_cons] at spread
    obtain ⟨above, inhabited, spread⟩ := Spread.cons_iff.mp spread
    obtain ⟨middle, inside, spread⟩ := spread.split
    obtain ⟨after, inhabited', rest⟩ := Spread.cons_iff.mp spread
    obtain ⟨itemSpans, itemParts⟩ := within inside
    obtain ⟨spans, parts⟩ := ih rest
    constructor
    · refine Spread.cons_iff.mpr ?_
      rw [spanned]
      exact ⟨above, inhabited.trans_le (inside.bounds.trans (after.trans inhabited'.le)), spans⟩
    · refine .cons ?_ (held ▸ itemParts) parts
      rw [Form.IsSpread, held, spanned]
      exact itemSpans.widen (le_of_lt inhabited) (after.trans inhabited'.le)
  | @quote mark inner tokens form forms quoted _ within ih =>
    rw [List.map_cons, List.map_append] at spread
    obtain ⟨above, inhabited, spread⟩ := Spread.cons_iff.mp spread
    obtain ⟨middle, inside, rest⟩ := spread.split
    obtain ⟨formSpan, formParts⟩ := within inside
    obtain ⟨after, inhabited', below⟩ := Spread.cons_iff.mp formSpan
    obtain ⟨spans, parts⟩ := ih (rest.widen below.bounds (le_refl _))
    constructor
    · exact Spread.cons_iff.mpr ⟨above, inhabited.trans (after.trans_lt inhabited'), spans⟩
    · -- The mark is the first of the two items and the quoted form the second.
      refine .cons ?_ (.cons (.nil inhabited.le) nofun formParts) parts
      refine Spread.cons_iff.mpr ⟨le_refl _, inhabited, ?_⟩
      exact Spread.cons_iff.mpr ⟨after, inhabited', .nil (le_refl _)⟩

/-- Every form inside forms stands in their tokens. -/
theorem Assembles.stands (assembles : Assembles tokens forms) :
    Throughout (·.StandsIn tokens) forms := by
  induction assembles with
  | nil => exact nofun
  | @atom value span tokens forms _ ih =>
    refine .cons ?_ nofun fun form member sub within => ?_
    · exact .inl ⟨[], [_], tokens, rfl, .atom .nil⟩
    · simpa using (ih form member sub within).widen [⟨.atom value, span⟩] []
  | @collection opener opening closing inner tokens items forms form inside closes _ within ih =>
    refine .cons ?_ ?_ fun form member sub within => ?_
    · exact .inl ⟨[], _, tokens, by simp, .collection inside closes .nil⟩
    · rw [(Assembly.of_close closes).2]
      intro item member sub within'
      simpa using (within item member sub within').widen [⟨.opening opener, opening⟩]
        (⟨.closing opener.closer, closing⟩ :: tokens)
    · have stands := (ih form member sub within).widen
        (⟨.opening opener, opening⟩ :: (inner ++ [⟨.closing opener.closer, closing⟩])) []
      simpa [List.append_assoc] using stands
  | @quote mark inner tokens form forms quoted _ within ih =>
    refine .cons ?_ (.cons ?_ nofun ?_) fun form member sub within => ?_
    · exact .inl ⟨[], _, tokens, by simp, .quote quoted .nil⟩
    · exact .inr ⟨[], mark, _, rfl, rfl⟩
    · intro item member sub within'
      simpa using (within item member sub within').widen [⟨.quote, mark⟩] tokens
    · simpa using (ih form member sub within).widen (⟨.quote, mark⟩ :: inner) []

end Source

/-! ### What spans cut out -/

namespace Form

/-- The span of a form cuts a piece out of a text, which reads as the form except that its places are
counted from its own beginning. -/
def CutsOut (form : Form) (text : String) : Prop :=
  ∃ before cut after alone, text = before ++ cut ++ after ∧ cut ≠ "" ∧
    form.span.start = before.utf8ByteSize ∧ form.span.stop = (before ++ cut).utf8ByteSize ∧
    Source.readOne cut = .ok alone ∧
    form = alone.mapSpans (·.behind (Source.Place.origin.past before.toList))

/-- A form is the symbol that a quote mark of a text is read as. -/
def IsMark (form : Form) (text : String) : Prop :=
  ∃ before after span, text = before ++ "\x27" ++ after ∧ form = .symbol (.simple "quote") span ∧
    span.start = before.utf8ByteSize ∧ span.stop = (before ++ "\x27").utf8ByteSize

end Form

namespace Source

/-- Offsets count the bytes of the text before a place. -/
theorem Place.offset_past_origin (text : List Char) :
    (Place.origin.past text).offset = (String.ofList text).utf8ByteSize := by
  rw [Place.offset_past]
  exact Nat.zero_add _

theorem Place.origin_behind (lead : Place) : Place.origin.behind lead = lead := rfl

variable {text : String} {before after : List Token}

theorem Scans.cutsOut (scans : Scans .origin text.toList (before ++ own ++ after))
    (made : Assembles own [form]) : form.CutsOut text := by
  obtain ⟨first, last, starts, stops, span⟩ := made.span_eq
  obtain ⟨others, rfl⟩ := List.head?_eq_some_iff.mp starts
  rw [List.append_assoc] at scans
  obtain ⟨lead, spelled, _, remaining, whole, _, start, scans⟩ := scans.exists_spelled
  obtain ⟨piece, rest, cut, inhabited, scans, stop⟩ := scans.exists_piece stops
  -- Read by itself, the piece begins where every text does.
  rw [← Place.origin_behind (Place.origin.past lead)] at scans
  obtain ⟨alone, scans, moved⟩ := scans.of_behind ⟨le_refl _, le_refl _⟩
  rw [moved] at made
  obtain ⟨forms, reads, same⟩ := made.of_behind
  obtain ⟨only, rfl, rfl⟩ := List.map_eq_singleton_iff.mp same.symm
  refine ⟨String.ofList lead, String.ofList piece, String.ofList rest, only, ?_, ?_, ?_, ?_, ?_, ?_⟩
  · rw [cut] at whole
    rw [← String.toList_inj, whole]
    simp
  · simpa using inhabited
  · rw [span, start]
    exact Place.offset_past_origin lead
  · rw [span, stop, ← String.ofList_append, ← Place.offset_past_origin, Place.past_append]
  · exact readOne_eq_iff.mpr ⟨alone, by simpa using scans, reads⟩
  · rw [String.toList_ofList]

theorem Scans.isMark {mark : Span}
    (scans : Scans .origin text.toList (before ++ ⟨.quote, mark⟩ :: after)) :
    (Form.symbol (.simple "quote") mark).IsMark text := by
  obtain ⟨lead, spelled, _, remaining, whole, spells, span, _⟩ := scans.exists_spelled
  obtain rfl : mark = _ := span
  cases spells
  refine ⟨String.ofList lead, String.ofList remaining, _, ?_, rfl, ?_, ?_⟩
  · rw [← String.toList_inj, whole]
    simp
  · exact Place.offset_past_origin lead
  · change ((Place.origin.past lead).past ['\x27']).offset = _
    rw [← Place.past_append, Place.offset_past_origin, String.ofList_append]

/-- The spans of a text that is read lie in the text one after the other, and so do the spans of the parts
of every form in its span. Cut out of the text, every form but a quote mark reads back as the same form
in its new place. A text that is not read has an error of its own, never an empty token. -/
theorem readAll_cuts (text : String) :
    (∀ forms, readAll text = .ok forms →
      Spread 0 text.utf8ByteSize (forms.map Form.span) ∧
      ∀ form ∈ forms, ∀ sub : Form, sub.Within form →
        Spread sub.span.start sub.span.stop (sub.items.map Form.span) ∧
        (¬ sub.IsMark text → sub.CutsOut text)) ∧
    ((∃ forms, readAll text = .ok forms) ∨
      ∃ error, error ≠ .emptyToken ∧ readAll text = .error error) := by
  constructor
  · intro forms reads
    obtain ⟨tokens, scans, assembles⟩ := readAll_eq_iff.mp reads
    have size : (Place.origin.past text.toList).offset = text.utf8ByteSize := by
      rw [Place.offset_past_origin, String.ofList_toList]
    obtain ⟨spread, parts⟩ := assembles.spread scans.spread
    refine ⟨size ▸ spread, fun form member sub within => ⟨parts form member sub within, ?_⟩⟩
    intro unmarked
    rcases assembles.stands form member sub within with
      ⟨before, own, after, rfl, made⟩ | ⟨before, mark, after, rfl, rfl⟩
    · exact scans.cutsOut made
    · exact absurd scans.isMark unmarked
  · cases reads : readAll text with
    | ok forms => exact .inl ⟨forms, rfl⟩
    | error error =>
      refine .inr ⟨error, ?_, rfl⟩
      rintro rfl
      exact readAll_ne_emptyToken text reads

/-- The quoted symbol of `['é]` takes up the bytes from two to four. -/
theorem quoted_cutsOut :
    readAll "['é]" = .ok [.vector [.list [.symbol (.simple "quote") ⟨1, 2, 1, 2, none⟩,
      .symbol (.simple "é") ⟨2, 4, 1, 3, none⟩] ⟨1, 4, 1, 2, none⟩] ⟨0, 5, 1, 1, none⟩] ∧
      (Form.symbol (.simple "é") ⟨2, 4, 1, 3, none⟩).CutsOut "['é]" := by
  constructor
  · rfl
  · have cuts := ((readAll_cuts "['é]").1 _ rfl).2 _ (List.mem_singleton_self _)
    refine (cuts _ (.inside (List.mem_singleton_self _) (.inside ?_ .self))).2 ?_
    · exact List.mem_cons_of_mem _ (List.mem_singleton_self _)
    · rintro ⟨_, _, _, _, same, _⟩
      simp [Symbol.simple] at same

end Source

end LispScope
