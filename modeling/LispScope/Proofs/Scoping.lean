import LispScope.Host.Namespaces
import LispScope.Proofs.Enactment
import LispScope.Proofs.Origin
import Mathlib

/-!
# Lexical scoping

References in a result against the scopes they stand in. A reference to an enclosing function is
always right: where it stands, the name of the function means the function. A reference to a local
name leads to its origin through the copies of the functions around. It is right exactly if the name
means the same before all those functions. Where it does not, the copy of one function has been
taken along by another one, which refers to the first from further inside.
-/
namespace LispScope

namespace FrameTree

variable {tree : FrameTree} {ids : List FrameId} {name : Symbol}
  {taken : FrameId → FrameId → Prop} {around : FrameId → Option Referent}

/-- The way from a copy on a path leads along the path, and from function to function the name means
the same or the copy was taken along. The last of the functions stands where the name means the
origin. -/
theorem Live.trail {inner outer : List FrameId} {frame : FrameId} {copy : BindingId}
    (live : Live taken tree ids) (sound : tree.Sound)
    (arounds : ∀ inner frame outer, ids = inner ++ frame :: outer → tree.isFunction frame = true →
      around frame = tree.around frame outer name)
    (split : ids = inner ++ frame :: outer) (held : tree.copy? frame name = some copy) :
    ∃ holders origin, tree.Trail copy (frame :: holders) origin ∧
      (∀ holder ∈ frame :: holders, holder ∈ ids ∧ tree.isFunction holder = true) ∧
      ((frame :: holders).IsChain fun inner outer => around inner = around outer ∨ taken inner outer) ∧
      ∃ last ∈ (frame :: holders).getLast?, around last = some (.binding origin) := by
  induction copy using Nat.strongRecOn generalizing inner frame outer with
  | ind copy ih =>
    have function := (sound.captures _ _ _ held).1
    have here : frame ∈ ids := by simp [split]
    obtain ⟨source, entry, means | ⟨between, target, further, rfl, held', link⟩⟩ :=
      live inner frame outer split name copy held
    -- The source is what the name means, and so it is the origin.
    · have means' : tree.meaning outer name = some (.binding source) := by
        rw [FrameTree.around] at means
        cases self : tree.self? frame name <;> simp_all
      obtain ⟨_, _, _, _, _, bound⟩ := meaning_binding means'
      have original := sound.locals _ _ _ bound
      refine ⟨[], source, .copy entry (.origin original), by simp [here, function], .singleton _, ?_⟩
      exact ⟨frame, rfl, (arounds inner frame outer split function).trans means⟩
    -- The source is a copy further out, and its own trail is known.
    · have earlier := (sound.sources _ _ _ _ entry).1
      have split' : ids = (inner ++ frame :: between) ++ target :: further := by simp [split]
      obtain ⟨holders, origin, trail, along, chain, last, ends, origins⟩ :=
        ih source earlier split' held'
      refine ⟨target :: holders, origin, .copy entry trail, ?_, ?_, last, ?_, origins⟩
      · intro holder member
        obtain rfl | member := List.mem_cons.mp member
        · exact ⟨here, function⟩
        · exact along holder member
      · refine List.isChain_cons_cons.mpr ⟨?_, chain⟩
        rw [arounds inner frame _ split function,
          arounds _ target further split' (along target (List.mem_cons_self ..)).2]
        exact link
      · rw [List.getLast?_cons_cons]
        exact ends

/-- A name that means a binding means it before all functions inside of it. -/
theorem around_of_meaning {origin : BindingId} {holder outermost : FrameId}
    {inner outer : List FrameId} {id : FrameId} (sound : tree.Sound) (path : tree.Path id ids)
    (means : tree.meaning ids name = some (.binding origin))
    (original : tree.Entry origin name outermost none) (split : ids = inner ++ holder :: outer)
    (further : outermost < holder) : tree.around holder outer name = some (.binding origin) := by
  obtain ⟨front, frame, rest, split', silent, bound⟩ := meaning_binding means
  obtain ⟨_, rfl, _⟩ := (sound.locals _ _ _ bound).unique original
  -- The frame that binds the name lies further out than the function.
  have member : holder ∈ front := by
    have among : holder ∈ front ++ outermost :: rest := split' ▸ split ▸ by simp
    have onward := path.decreasing sound.ordered
    rw [split', List.pairwise_append, List.pairwise_cons] at onward
    obtain inside | outside := List.mem_append.mp among
    · exact inside
    · obtain rfl | outside := List.mem_cons.mp outside
      · exact absurd further (Nat.lt_irrefl _)
      · exact absurd (onward.2.1.1 holder outside) (Nat.lt_asymm further)
  obtain ⟨between, rfl, rfl⟩ := path.split_unique sound split' split member
  have unnamed : tree.self? holder name = none := by
    have := silent holder (by simp)
    simp only [own?, Option.orElse_eq_orElse, Option.orElse_eq_or, Option.or_eq_none_iff,
      Option.map_eq_none_iff] at this
    exact this.2
  rw [FrameTree.around, unnamed,
    meaning_append_of_silent fun other among => silent other (by simp [among])]
  simp [meaning_cons, own?, bound]

end FrameTree

/-- A chain of equal values ends with the value that it starts with. -/
theorem eq_of_isChain {α β : Type} {value : α → β} {first last : α} {rest : List α}
    (chain : (first :: rest).IsChain fun inner outer => value inner = value outer)
    (ends : last ∈ (first :: rest).getLast?) : value first = value last := by
  induction rest generalizing first with
  | nil =>
    cases ends
    rfl
  | cons next rest ih =>
    obtain ⟨same, chain⟩ := List.isChain_cons_cons.mp chain
    rw [List.getLast?_cons_cons] at ends
    exact same.trans (ih chain ends)

/-- Where a reference to a local name leads. -/
theorem Tracks.reference {taken : FrameId → FrameId → Prop} {scope : Scope} {frame : FrameId}
    {ids : List FrameId} {before between after : FrameTree} {name : Symbol}
    {source binding : BindingId} {crossed : List FrameId} {boxed : Bool}
    (tracks : Tracks taken scope frame ids before)
    (refers : before.Refers frame name ⟨.binding source, crossed⟩)
    (captured : before.capture ⟨source, crossed⟩ = some (binding, between))
    (noted : between.noteUse binding boxed = some after) :
    ∃ holders origin, after.Trail binding holders origin ∧
      (scope.lookup name = some (.binding origin) ↔
        holders.IsChain fun inner outer => scope.around inner name = scope.around outer name) ∧
      holders.IsChain fun inner outer =>
        scope.around inner name = scope.around outer name ∨ taken inner outer := by
  have plain := (refers.split tracks.path).1
  have used := FrameTree.use_holder tracks.sound tracks.path refers captured noted
  obtain ⟨path, sound, sees, live, _⟩ := tracks.use refers captured noted
  rw [sees.lookup name plain]
  obtain ⟨_, entry, means, _⟩ | ⟨inner, holder, outer, split, _, held, means⟩ := used
  -- Without copies the reference leads to what the name means.
  · exact ⟨[], binding, .origin entry, by simp [means], .nil⟩
  · have arounds := fun inner frame outer split function =>
      sees.around inner frame outer split function name plain
    obtain ⟨holders, origin, trail, along, chain, last, ends, origins⟩ :=
      live.trail sound arounds split held
    refine ⟨holder :: holders, origin, trail, ?_, chain⟩
    have function := (along holder (List.mem_cons_self ..)).2
    rw [means, ← arounds inner holder outer split function]
    constructor
    -- All functions on the trail are inside the origin, so the name means it before each of them.
    · intro right
      have all (other : FrameId) (member : other ∈ holder :: holders) :
          scope.around other name = some (.binding origin) := by
        obtain ⟨_, _, entry⟩ := sound.captures _ _ _ held
        obtain ⟨_, _, outermost, trail', original, outside, _⟩ :=
          FrameTree.Trail.exists_of_entry sound entry
        obtain ⟨rfl, rfl⟩ := trail.unique trail'
        obtain ⟨among, function⟩ := along other member
        obtain ⟨first, rest, split'⟩ := List.append_of_mem among
        rw [arounds first other rest split' function]
        rw [arounds inner holder outer split ‹_›, ← means] at right
        exact FrameTree.around_of_meaning sound path right original split' (outside other member)
      refine chain.imp_of_mem_imp fun inner outer member member' _ => ?_
      rw [all inner member, all outer member']
    -- If the meaning never changes, it is the one before the last function, which is the origin.
    · intro chain
      exact (eq_of_isChain chain ends).trans origins

/-- Where a reference to an enclosing function leads. -/
theorem Tracks.selfReference {taken : FrameId → FrameId → Prop} {scope : Scope} {frame : FrameId}
    {ids : List FrameId} {tree final : FrameTree} {name : Symbol} {target : FrameId}
    {crossed : List FrameId} (tracks : Tracks taken scope frame ids tree)
    (refers : tree.Refers frame name ⟨.self target, crossed⟩) (grows : tree.Grows final) :
    (∃ held context text, final.frame? target = some held ∧ held.function? = some context ∧
      context.name = some text ∧ scope.lookup (.simple text) = some (.self target)) ∧
    ∃ outer, scope.functions.map Prod.fst = crossed ++ target :: outer := by
  obtain ⟨path, sound, sees, _, _⟩ := tracks
  obtain ⟨plain, inner, at_, outer, rfl, silent, answers, rfl⟩ := refers.split path
  obtain ⟨unbound, _, self⟩ := FrameTree.answer?_self.mp answers
  obtain ⟨rfl, held, context, found, known, named⟩ := FrameTree.self?_some self
  have function : tree.isFunction target = true := by
    simp [FrameTree.isFunction, found, ← sound.known target held found, known]
  refine ⟨?_, outer.filter tree.isFunction, ?_⟩
  · obtain ⟨grown, found', same⟩ := grows.frames _ _ found
    have named' : grown.isNamed name.name = true := by
      rw [FrameTree.isNamed_of_outline same.outline]
      simp [Frame.isNamed, known, named]
    rw [Frame.isNamed, Option.any_eq_true] at named'
    obtain ⟨context, known, named'⟩ := named'
    refine ⟨grown, context, name.name, found', known, by simpa using named', ?_⟩
    -- Only unqualified names refer to functions.
    have simple : Symbol.simple name.name = name := by
      obtain ⟨ns, text⟩ := name
      cases ns with
      | none => rfl
      | some ns => cases plain
    rw [simple, sees.lookup name plain,
      FrameTree.meaning_append_of_silent fun other member =>
        FrameTree.own?_of_silent (silent other member),
      FrameTree.meaning_of_unbound unbound, FrameTree.around, self]
    rfl
  · rw [sees.functions, List.filter_append, List.filter_cons, if_pos function]

/-! ### All references of a result -/

/-- Every node of a result has a scope, and references agree with it as follows.

* A reference to a local name leads, through the copies of some functions, to an origin. The name
  means this origin exactly if it means the same before the parameters of all these functions. Where
  it does not mean the same before two of them, the inner one holds a reference to the outer one.
* A reference to an enclosing function leads to the one that its name means. A call of it lists the
  functions that are left on the way, innermost first. -/
theorem Session.analyze_scoping {σ : Type} {analyzer : Analyzer σ} {depth : Nat} {form : Form}
    {session : Session σ} {analysis : Analysis}
    (analyzed : ((Session.analyze analyzer depth form).run session).1 = .ok analysis) :
    (analysis.expr.scoped analysis.tree).map Prod.snd = analysis.expr.walk ∧
    ∀ scope found, (scope, found) ∈ analysis.expr.scoped analysis.tree →
      (∀ name binding boxed, found.node = .localRef name binding boxed →
        ∃ holders origin, analysis.tree.Trail binding holders origin ∧
          (scope.lookup name = some (.binding origin) ↔
            holders.IsChain fun inner outer => scope.around inner name = scope.around outer name) ∧
          holders.IsChain fun inner outer =>
            scope.around inner name = scope.around outer name ∨
              analysis.expr.Crosses analysis.tree inner outer) ∧
      (∀ target, found.node.recursesTo? = some target →
        ∃ frame context name, analysis.tree.frame? target = some frame ∧
          frame.function? = some context ∧ context.name = some name ∧
          scope.lookup (.simple name) = some (.self target)) ∧
      ∀ target args crossed, found.node = .selfCall target args crossed →
        ∃ outer, scope.functions.map Prod.fst = crossed ++ target :: outer := by
  refine ⟨Expr.map_snd_scoped _ _, ?_⟩
  intro scope found member
  obtain ⟨frame, ids, before, after, tracks, begins, grows⟩ :=
    Session.analyze_tracks analyzed member
  have grows' := begins.effect.grows.1.trans grows
  refine ⟨?_, ?_, ?_⟩
  · intro name binding boxed reference
    rw [reference] at begins
    cases begins with
    | localRef refers captured noted =>
      obtain ⟨holders, origin, trail, right, chain⟩ := tracks.reference refers captured noted
      exact ⟨holders, origin, trail.keeps grows.bindings, right, chain⟩
    | var looked => cases looked
    | idle idle => cases idle
  · intro target self
    cases begins.effect with
    | recurs _ self' refers =>
      cases self.symm.trans self'
      exact (tracks.selfReference refers grows').1
    | lifts _ notSelf | uses _ notSelf => simp [notSelf] at self
  · intro target args crossed call
    rw [call] at begins
    cases begins with
    | selfCall refers => exact (tracks.selfReference refers grows').2
    | var looked => cases looked
    | idle idle => cases idle

/-- `(let* [x nil] (fn* f [] x (let* [x nil] (fn* [] (f) x))))`. -/
def rebound : Form :=
  let symbol (name : String) : Form := .symbol (.simple name) .synthetic
  let list (items : List Form) : Form := .list items .synthetic
  let vector (items : List Form) : Form := .vector items .synthetic
  list [symbol "let*", vector [symbol "x", .atom .nil .synthetic],
    list [symbol "fn*", symbol "f", vector [], symbol "x",
      list [symbol "let*", vector [symbol "x", .atom .nil .synthetic],
        list [symbol "fn*", vector [], list [symbol "f"], symbol "x"]]]]

/-- In `rebound` the last `x` means the second binding and leads to the first one. So some reference
crosses a boundary, namely that to `f`. -/
theorem rebound_scoping : ∃ analysis,
    ((Session.analyze ⟨Namespaces.host, .standard⟩ 7 rebound).run (.start (.inside "user"))).1 =
      .ok analysis ∧
    ∃ scope found, (scope, found) ∈ analysis.expr.scoped analysis.tree ∧
      found.node = .localRef (.simple "x") 3 true ∧ analysis.tree.origin? 3 = some 0 ∧
      scope.lookup (.simple "x") = some (.binding 2) ∧
      ∃ inner outer, analysis.expr.Crosses analysis.tree inner outer := by
  have computed : (((Session.analyze ⟨Namespaces.host, .standard⟩ 7 rebound).run
      (.start (.inside "user"))).1.toOption.bind fun analysis =>
        (analysis.expr.scoped analysis.tree).getLast?.map fun last =>
          (last.2.node.localRef?, analysis.tree.origin? 3, last.1.lookup (.simple "x"))) =
      some (some (.simple "x", 3, true), some 0, some (.binding 2)) := by
    cbv
  simp only [Option.bind_eq_some_iff, Option.map_eq_some_iff, Prod.mk.injEq] at computed
  obtain ⟨analysis, result, ⟨scope, found⟩, last, reference, origin, means⟩ := computed
  have analyzed := ok_of_toOption result
  have member := List.mem_of_getLast? last
  have reference : found.node = .localRef (.simple "x") 3 true := by
    cases node : found.node <;> simp_all [Node.localRef?]
  refine ⟨analysis, analyzed, scope, found, member, reference, origin, means, ?_⟩
  obtain ⟨holders, last, trail, right, chain⟩ :=
    ((Session.analyze_scoping analyzed).2 scope found member).1 _ _ _ reference
  apply Classical.byContradiction
  intro none_
  have same := chain.imp fun inner outer link =>
    link.resolve_right fun crosses => none_ ⟨inner, outer, crosses⟩
  have origin' := (Session.analyze_sound analyzed).origin?_iff.mpr ⟨holders, trail⟩
  rw [means] at right
  cases right.mpr same
  cases origin.symm.trans origin'

end LispScope
