import LispScope.Host.Standard
import LispScope.Proofs.Enactment
import LispScope.Proofs.Equality
import LispScope.Proofs.Home
import Mathlib.Data.List.Basic

/-!
# Lifted vars and constants

A node belongs to the nearest function around it, or to the root: its *home*. Vars and constants are
kept on two *shelves* of the home, which differ in their keys and in the nodes that use them, and are
filled alike: a node whose key is on the shelf takes the entry that stands there, and otherwise puts
one with a new name behind the others. So a shelf holds the keys of the nodes at home there, each once
and in the order of the walk, and every node has the entry of its home (`Session.analyze_lifting`).
-/
namespace LispScope

/-! ### Names that were handed out -/

namespace NameSupply

variable {supply rest : NameSupply} {label : String}

/-- The label ends in the number of an identifier that was handed out. -/
def Issued (supply : NameSupply) (label : String) : Prop :=
  ∃ text number, number ≤ supply.issued ∧ label = text ++ "_" ++ toString number

theorem Issued.mono (issued : supply.Issued label) (later : supply.issued ≤ rest.issued) :
    rest.Issued label := by
  obtain ⟨text, number, bound, rfl⟩ := issued
  exact ⟨text, number, Nat.le_trans bound later, rfl⟩

/-- The digits after the last underscore tell the number. -/
theorem number_unique {text text' : String} {number number' : Nat}
    (same : text ++ "_" ++ toString number = text' ++ "_" ++ toString number') :
    number = number' := by
  have digits (n : Nat) : '_' ∉ Nat.toDigits 10 n := fun member =>
    absurd (Nat.isDigit_of_mem_toDigits (by decide) (by decide) member) (by decide)
  have split : text.toList ++ '_' :: Nat.toDigits 10 number =
      text'.toList ++ '_' :: Nat.toDigits 10 number' := by
    simpa using congrArg String.toList same
  have tails : Nat.toDigits 10 number = Nat.toDigits 10 number' := by
    rcases List.append_eq_append_iff.mp split with ⟨front, _, shifted⟩ | ⟨front, _, shifted⟩ <;>
      rcases front with _ | ⟨first, front⟩
    · exact (List.cons.inj shifted).2
    · exact absurd ((List.cons.inj shifted).2 ▸ by simp) (digits number)
    · exact (List.cons.inj shifted).2.symm
    · exact absurd ((List.cons.inj shifted).2 ▸ by simp) (digits number')
  have read (n : Nat) : Nat.ofDigitChars 10 (Nat.toDigits 10 n) 0 = n :=
    Nat.ofDigitChars_toDigits (by decide) (by decide)
  rw [← read number, tails, read]

theorem issued_of_fresh {name : String} (drawn : supply.fresh name = (label, rest)) :
    rest.Issued label ∧ ¬ supply.Issued label ∧ supply.issued ≤ rest.issued := by
  cases drawn
  refine ⟨⟨_, _, Nat.le_refl _, rfl⟩, ?_, Nat.le_succ _⟩
  rintro ⟨text, number, bound, same⟩
  have next := number_unique same
  omega

end NameSupply

/-! ### What lifting changes -/

/-- What a registry is after a key was lifted, and which value and names that gives: an equal key has
its entry already, or an entry with a new name is made. -/
inductive Registered [BEq κ] (label : ν → String) (content : ν → κ) (key : κ) (value : ν)
    (supply names : NameSupply) : Registry κ ν → Registry κ ν → Prop
  | found {registry : Registry κ ν} (held : registry.get? key = some value) (same : names = supply) :
      Registered label content key value supply names registry registry
  | made {registry : Registry κ ν} {text : String} (absent : registry.get? key = none)
      (own : content value = key) (drawn : supply.fresh text = (label value, names)) :
      Registered label content key value supply names registry (registry.push key value)

theorem Registered.of_getOrInsert [BEq κ] {label : ν → String} {content : ν → κ} {key : κ}
    {supply rest : NameSupply} {text : String} (registry : Registry κ ν) (offered : ν)
    (own : content offered = key) (drawn : supply.fresh text = (label offered, rest)) :
    Registered label content key (registry.getOrInsert key offered).1 supply
      (if (registry.getOrInsert key offered).2.1 then rest else supply) registry
      (registry.getOrInsert key offered).2.2 := by
  cases present : registry.get? key with
  | some entry =>
    rw [Registry.getOrInsert_of_some present]
    exact .found present rfl
  | none =>
    rw [Registry.getOrInsert_of_none present]
    exact .made present own drawn

namespace FrameTree

variable {tree before between after : FrameTree} {id : FrameId}

/-- The vars and constants of a frame. -/
def lifts (tree : FrameTree) (id : FrameId) :
    Registry Symbol LiftedVar × Registry Datum LiftedConstant :=
  (tree.frame? id).elim (.empty, .empty) fun frame => (frame.vars, frame.constants)

theorem lifts_of_frame {frame : Frame} (held : tree.frame? id = some frame) :
    tree.lifts id = (frame.vars, frame.constants) := by
  simp [lifts, held]

/-- All frames keep their vars and constants. -/
def SameLifts (before after : FrameTree) : Prop := ∀ id, after.lifts id = before.lifts id

theorem SameLifts.trans (first : before.SameLifts between) (second : between.SameLifts after) :
    before.SameLifts after := fun id => (second id).trans (first id)

theorem SameLifts.of_frames (frames : after.frames = before.frames) : before.SameLifts after := by
  intro id
  rw [lifts, lifts, frame?, frame?, frames]

/-- A change of one frame that leaves its vars and constants alone. -/
theorem SameLifts.of_change {held changed : Frame} {target : FrameId}
    (found : before.frame? target = some held) (found' : after.frame? target = some changed)
    (same : changed.vars = held.vars ∧ changed.constants = held.constants)
    (others : ∀ id, id ≠ target → after.frame? id = before.frame? id) :
    before.SameLifts after := by
  intro id
  by_cases here : id = target
  · subst here
    rw [lifts_of_frame found, lifts_of_frame found', same.1, same.2]
  · rw [lifts, lifts, others id here]

theorem Captures.sameLifts (captures : before.Captures after) : before.SameLifts after := by
  induction captures with
  | done => exact .of_frames rfl
  | copy copies _ ih =>
    obtain ⟨held, found, _, changed⟩ := copies.added
    exact SameLifts.trans (.of_change found changed ⟨rfl, rfl⟩ copies.others) ih
  | use noted _ ih => exact SameLifts.trans (.of_frames (noteUse_some noted).1) ih

theorem updateFrame_sameLifts {change : Frame → Frame}
    (updated : tree.updateFrame id change = some after)
    (same : ∀ held : Frame, (change held).vars = held.vars ∧ (change held).constants = held.constants) :
    tree.SameLifts after := by
  obtain ⟨held, found, _, _, changed, others⟩ := updateFrame_some updated
  exact .of_change found changed (same held) others

theorem counts_sameLifts {arity : Nat} (counts : Counts id arity before after) :
    before.SameLifts after := by
  obtain ⟨_, _, _, filled⟩ := counts
  exact updateFrame_sameLifts filled fun _ => ⟨rfl, rfl⟩

theorem bind_sameLifts {name : Symbol} {initial : Option Expr} {needsBox : Bool}
    {binding : BindingId} (bound : before.bind id name initial needsBox = some (binding, after)) :
    before.SameLifts after := by
  obtain ⟨_, _, _, ⟨held, found, changed⟩, others⟩ := bind_some bound
  exact .of_change found changed ⟨rfl, rfl⟩ others

/-- A frame that is added has neither vars nor constants. -/
theorem SameLifts.of_push {new : Frame} (pushed : after.frames = before.frames.push new)
    (bare : (new.vars, new.constants) = (.empty, .empty)) : before.SameLifts after := by
  obtain ⟨_, held, others⟩ := frame?_push pushed
  intro other
  by_cases here : other = before.frames.size
  · subst here
    have absent : before.frame? before.frames.size = none := Array.getElem?_eq_none (Nat.le_refl _)
    rw [lifts_of_frame held, lifts, absent]
    exact bare
  · rw [lifts, lifts, others other here]

theorem openFrame_sameLifts {kind : FrameKind} {inner : FrameId}
    (opened : before.openFrame kind id = (inner, after)) : before.SameLifts after := by
  cases opened
  exact .of_push rfl rfl

theorem enter_sameLifts {opening : Opening} {inner : FrameId}
    (opened : before.enter opening id = (inner, after)) : before.SameLifts after := by
  cases opened
  exact .of_push rfl rfl

theorem liftVar_some {supply names : NameSupply} {name : Symbol} {var : LiftedVar}
    (lifted : tree.liftVar supply id name = some (var, after, names)) :
    ∃ home, tree.Home id home ∧ (∀ other, other ≠ home → after.lifts other = tree.lifts other) ∧
      (after.lifts home).2 = (tree.lifts home).2 ∧
      Registered LiftedVar.nativeName LiftedVar.name name var supply names (tree.lifts home).1
        (after.lifts home).1 := by
  simp only [liftVar, Option.bind_eq_bind, Option.bind_eq_some_iff, Option.pure_def,
    Option.some.injEq, Prod.mk.injEq] at lifted
  obtain ⟨home, closest, held, found, between, updated, rfl, rfl, rfl⟩ := lifted
  obtain ⟨held', found', _, _, changed, others⟩ := updateFrame_some updated
  cases found.symm.trans found'
  refine ⟨home, .of_closestFunction closest, ?_, ?_, ?_⟩
  · intro other elsewhere
    rw [lifts, lifts, others other elsewhere]
  · rw [lifts_of_frame changed, lifts_of_frame found]
  · rw [lifts_of_frame changed, lifts_of_frame found]
    exact .of_getOrInsert held.vars ⟨name, _⟩ rfl rfl

theorem liftConstant_some {supply names : NameSupply} {value : Datum} {constant : LiftedConstant}
    (lifted : tree.liftConstant supply id value = some (constant, after, names)) :
    ∃ home, tree.Home id home ∧ (∀ other, other ≠ home → after.lifts other = tree.lifts other) ∧
      (after.lifts home).1 = (tree.lifts home).1 ∧
      Registered LiftedConstant.nativeName LiftedConstant.value value constant supply names
        (tree.lifts home).2 (after.lifts home).2 := by
  simp only [liftConstant, Option.bind_eq_bind, Option.bind_eq_some_iff, Option.pure_def,
    Option.some.injEq, Prod.mk.injEq] at lifted
  obtain ⟨home, closest, held, found, between, updated, rfl, rfl, rfl⟩ := lifted
  obtain ⟨held', found', _, _, changed, others⟩ := updateFrame_some updated
  cases found.symm.trans found'
  refine ⟨home, .of_closestFunction closest, ?_, ?_, ?_⟩
  · intro other elsewhere
    rw [lifts, lifts, others other elsewhere]
  · rw [lifts_of_frame changed, lifts_of_frame found]
  · rw [lifts_of_frame changed, lifts_of_frame found]
    exact .of_getOrInsert held.constants ⟨value, _⟩ rfl rfl

end FrameTree

/-! ### Shelves -/

/-- Of equal items the first stays. -/
theorem eraseDups_concat [BEq κ] (seen : List κ) (key : κ) :
    (seen ++ [key]).eraseDups =
      if seen.eraseDups.any (key == ·) then seen.eraseDups else seen.eraseDups ++ [key] := by
  have loop (kept : List κ) : List.eraseDupsBy.loop (· == ·) (seen ++ [key]) kept =
      if (List.eraseDupsBy.loop (· == ·) seen kept).any (key == ·) then
        List.eraseDupsBy.loop (· == ·) seen kept
      else List.eraseDupsBy.loop (· == ·) seen kept ++ [key] := by
    induction seen generalizing kept with
    | nil =>
      simp only [List.nil_append, List.eraseDupsBy.loop, List.any_reverse]
      cases kept.any (key == ·) <;> simp
    | cons item seen ih =>
      simp only [List.cons_append, List.eraseDupsBy.loop]
      by_cases among : kept.any (item == ·) = true
      · simp only [among]
        exact ih _
      · simp only [Bool.not_eq_true] at among
        simp only [among]
        exact ih _
  exact loop []

theorem Registry.get?_isSome [BEq κ] [PartialEquivBEq κ] (registry : Registry κ ν) (key : κ) :
    (registry.get? key).isSome = registry.keys.any (key == ·) := by
  simp only [get?, keys, Option.isSome_map, List.any_map, List.isSome_find?]
  congr 1
  funext entry
  exact BEq.comm

theorem Registry.mem_of_get? [BEq κ] {registry : Registry κ ν} {key : κ} {value : ν}
    (held : registry.get? key = some value) :
    ∃ entry ∈ registry.entries, (entry.1 == key) = true ∧ entry.2 = value := by
  obtain ⟨entry, found, rfl⟩ := Option.map_eq_some_iff.mp held
  have same := List.find?_some found
  exact ⟨entry, List.mem_of_find?_eq_some found, same, rfl⟩

namespace Registered

variable {κ ν : Type} [BEq κ] {label : ν → String} {content : ν → κ} {key : κ} {value : ν}
  {supply names : NameSupply} {old new : Registry κ ν}

theorem keys [PartialEquivBEq κ]
    (registered : Registered label content key value supply names old new) :
    new.keys = if old.keys.any (key == ·) then old.keys else old.keys ++ [key] := by
  rw [← Registry.get?_isSome]
  cases registered with
  | found held => simp [held]
  | made absent => simp [absent]

theorem kept (registered : Registered label content key value supply names old new) {other : κ}
    {entry : ν} (held : old.get? other = some entry) : new.get? other = some entry := by
  cases registered with
  | found => exact held
  | made => simp [Registry.get?_push, held]

theorem get?_key [ReflBEq κ]
    (registered : Registered label content key value supply names old new) :
    new.get? key = some value := by
  cases registered with
  | found held => exact held
  | made absent => simp [Registry.get?_push, absent]

theorem mem_entries (registered : Registered label content key value supply names old new)
    {entry : κ × ν} (member : entry ∈ new.entries) :
    entry ∈ old.entries ∨ (entry = (key, value) ∧ content value = key ∧
      ∃ text, supply.fresh text = (label value, names)) := by
  cases registered with
  | found => exact .inl member
  | made _ own drawn =>
    rcases List.mem_append.mp member with member | new
    · exact .inl member
    · exact .inr ⟨List.mem_singleton.mp new, own, _, drawn⟩

theorem content_eq [LawfulBEq κ]
    (registered : Registered label content key value supply names old new)
    (named : ∀ entry ∈ old.entries, content entry.2 = entry.1) : content value = key := by
  cases registered with
  | found held =>
    obtain ⟨entry, member, same, rfl⟩ := Registry.mem_of_get? held
    rw [named entry member, eq_of_beq same]
  | made _ own => exact own

theorem issued_le (registered : Registered label content key value supply names old new) :
    supply.issued ≤ names.issued := by
  cases registered with
  | found _ same => exact Nat.le_of_eq (congrArg NameSupply.issued same.symm)
  | made _ _ drawn => exact (NameSupply.issued_of_fresh drawn).2.2

end Registered

/-- One of the two registries of every frame, and the nodes that use it. -/
structure Shelf (κ ν : Type) where
  pick : Registry Symbol LiftedVar × Registry Datum LiftedConstant → Registry κ ν
  /-- The key and the entry of a node. -/
  use? : Node Expr → Option (κ × ν)
  /-- The identifier of an entry. -/
  label : ν → String
  /-- The key that an entry was made for. -/
  content : ν → κ

namespace Shelf

variable {κ ν : Type} (shelf : Shelf κ ν)

def held (tree : FrameTree) (id : FrameId) : Registry κ ν := shelf.pick (tree.lifts id)

/-- The key that a node looks up on the shelf of a frame. -/
def keyAt (id : FrameId) (node : FrameId × Expr) : Option κ :=
  if node.1 = id then (shelf.use? node.2.node).map Prod.fst else none

/-- Every entry stands under the key that it was made for. -/
def Named (tree : FrameTree) : Prop :=
  ∀ id, ∀ entry ∈ (shelf.held tree id).entries, shelf.content entry.2 = entry.1

theorem Named.congr {shelf : Shelf κ ν} {tree after : FrameTree} (named : shelf.Named tree)
    (same : tree.SameLifts after) : shelf.Named after := by
  intro id entry member
  rw [held, same id] at member
  exact named id entry member

/-- The identifiers of all entries were handed out, and no two frames share one. -/
structure Labelled (store : Store) : Prop where
  issued : ∀ id, ∀ entry ∈ (shelf.held store.tree id).entries,
    store.names.Issued (shelf.label entry.2)
  apart : ∀ id, ∀ entry ∈ (shelf.held store.tree id).entries, ∀ id',
    ∀ entry' ∈ (shelf.held store.tree id').entries,
      shelf.label entry.2 = shelf.label entry'.2 → id = id'

variable [BEq κ]

/-- What nodes, with their homes, add to the shelf of every frame. -/
structure Collects (nodes : List (FrameId × Expr)) (before after : Store) : Prop where
  keys : ∀ id seen, (shelf.held before.tree id).keys = seen.eraseDups →
    (shelf.held after.tree id).keys = (seen ++ nodes.filterMap (shelf.keyAt id)).eraseDups
  kept : ∀ id key value, (shelf.held before.tree id).get? key = some value →
    (shelf.held after.tree id).get? key = some value
  carried : ∀ home found, (home, found) ∈ nodes → ∀ entry, shelf.use? found.node = some entry →
    (shelf.held after.tree home).get? entry.1 = some entry.2
  used : ∀ id, ∀ entry ∈ (shelf.held after.tree id).entries,
    entry ∈ (shelf.held before.tree id).entries ∨
      (shelf.content entry.2 = entry.1 ∧
        ∃ found, (id, found) ∈ nodes ∧ shelf.use? found.node = some entry)
  labelled : shelf.Labelled before → shelf.Labelled after

variable {shelf} {nodes others : List (FrameId × Expr)} {before between after : Store}
  {home : FrameId} {expr : Expr}

namespace Collects

theorem trans (first : shelf.Collects nodes before between)
    (second : shelf.Collects others between after) :
    shelf.Collects (nodes ++ others) before after where
  keys id seen known := by
    rw [second.keys id _ (first.keys id seen known), List.filterMap_append, List.append_assoc]
  kept id key value held := second.kept id key value (first.kept id key value held)
  carried home found member entry use := by
    rcases List.mem_append.mp member with member | member
    · exact second.kept _ _ _ (first.carried home found member entry use)
    · exact second.carried home found member entry use
  used id entry member := by
    rcases second.used id entry member with member | ⟨own, found, among, use⟩
    · rcases first.used id entry member with member | ⟨own, found, among, use⟩
      · exact .inl member
      · exact .inr ⟨own, found, List.mem_append_left _ among, use⟩
    · exact .inr ⟨own, found, List.mem_append_right _ among, use⟩
  labelled held := second.labelled (first.labelled held)

theorem named (collects : shelf.Collects nodes before after) (named : shelf.Named before.tree) :
    shelf.Named after.tree := by
  intro id entry member
  rcases collects.used id entry member with member | ⟨own, _⟩
  · exact named id entry member
  · exact own

/-- Nodes that use nothing on a shelf leave it as it is. -/
theorem of_same (unused : ∀ node ∈ nodes, shelf.use? node.2.node = none)
    (same : ∀ id, shelf.held after.tree id = shelf.held before.tree id)
    (later : before.names.issued ≤ after.names.issued) : shelf.Collects nodes before after where
  keys id seen known := by
    have none_ : nodes.filterMap (shelf.keyAt id) = [] := by
      rw [List.filterMap_eq_nil_iff]
      intro node member
      simp [keyAt, unused node member]
    rw [same, none_, List.append_nil, known]
  kept id key value held := by rw [same, held]
  carried home found member entry use := by
    rw [unused _ member] at use
    cases use
  used id entry member := .inl (same id ▸ member)
  labelled labelled := by
    constructor
    · intro id entry member
      exact (labelled.issued id entry (same id ▸ member)).mono later
    · intro id entry member id' entry' member'
      exact labelled.apart id entry (same id ▸ member) id' entry' (same id' ▸ member')

/-- A node that uses an entry registers its key at home. -/
theorem of_registered [EquivBEq κ] {key : κ} {value : ν}
    (use : shelf.use? expr.node = some (key, value))
    (others : ∀ id, id ≠ home → shelf.held after.tree id = shelf.held before.tree id)
    (registered : Registered shelf.label shelf.content key value before.names after.names
      (shelf.held before.tree home) (shelf.held after.tree home)) :
    shelf.Collects [(home, expr)] before after := by
  constructor
  · intro id seen known
    by_cases same : home = id
    · subst same
      have listed : [(home, expr)].filterMap (shelf.keyAt home) = [key] := by simp [keyAt, use]
      rw [listed, eraseDups_concat, ← known, registered.keys]
    · rw [others id (Ne.symm same)]
      simp [keyAt, same, known]
  · intro id other entry held
    by_cases same : id = home
    · subst same
      exact registered.kept held
    · rw [others id same, held]
  · intro home' found member entry use'
    cases List.mem_singleton.mp member
    cases use.symm.trans use'
    exact registered.get?_key
  · intro id entry member
    by_cases same : id = home
    · subst same
      rcases registered.mem_entries member with member | ⟨rfl, own, _⟩
      · exact .inl member
      · exact .inr ⟨own, expr, List.mem_singleton_self _, use⟩
    · rw [others id same] at member
      exact .inl member
  · intro labelled
    -- An entry is an old one, or the new one at home, whose identifier is new as well.
    have each (id : FrameId) (entry : κ × ν) (member : entry ∈ (shelf.held after.tree id).entries) :
        entry ∈ (shelf.held before.tree id).entries ∨ (id = home ∧
          after.names.Issued (shelf.label entry.2) ∧ ¬ before.names.Issued (shelf.label entry.2)) := by
      by_cases same : id = home
      · subst same
        rcases registered.mem_entries member with member | ⟨rfl, _, _, drawn⟩
        · exact .inl member
        · obtain ⟨issued, fresh, _⟩ := NameSupply.issued_of_fresh drawn
          exact .inr ⟨rfl, issued, fresh⟩
      · rw [others id same] at member
        exact .inl member
    constructor
    · intro id entry member
      rcases each id entry member with member | ⟨_, issued, _⟩
      · exact (labelled.issued id entry member).mono registered.issued_le
      · exact issued
    · intro id entry member id' entry' member' same
      rcases each id entry member with old | ⟨rfl, _, fresh⟩ <;>
        rcases each id' entry' member' with old' | ⟨rfl, _, fresh'⟩
      · exact labelled.apart id entry old id' entry' old' same
      · exact absurd (same ▸ labelled.issued id entry old) fresh'
      · exact absurd (same ▸ labelled.issued id' entry' old') fresh
      · rfl

end Collects

/-- What a node does at its beginning is what it adds to the shelf of its home. -/
def Lawful (shelf : Shelf κ ν) : Prop :=
  ∀ {frame home : FrameId} {expr : Expr} {before after : Store}, before.tree.Home frame home →
    shelf.Named before.tree → Begins frame expr.node before after →
    shelf.Collects [(home, expr)] before after

end Shelf

/-- The value of a constant and its entry. -/
def Node.lifted? : Node ε → Option (Datum × LiftedConstant)
  | literal value (some constant) => some (value, constant)
  | _ => none

theorem Node.lifted?_eq_some {node : Node ε} {entry : Datum × LiftedConstant} :
    node.lifted? = some entry ↔ node = .literal entry.1 (some entry.2) := by
  cases node with
  | literal value lifted => cases lifted <;> simp [lifted?, Prod.ext_iff]
  | _ => simp [lifted?]

def varShelf : Shelf Symbol LiftedVar where
  pick := Prod.fst
  use? node := node.var?.map fun var => (var.name, var)
  label := LiftedVar.nativeName
  content := LiftedVar.name

def constantShelf : Shelf Datum LiftedConstant where
  pick := Prod.snd
  use? := Node.lifted?
  label := LiftedConstant.nativeName
  content := LiftedConstant.value

theorem varShelf_held {tree : FrameTree} {id : FrameId} {frame : Frame}
    (held : tree.frame? id = some frame) : varShelf.held tree id = frame.vars :=
  congrArg Prod.fst (FrameTree.lifts_of_frame held)

theorem constantShelf_held {tree : FrameTree} {id : FrameId} {frame : Frame}
    (held : tree.frame? id = some frame) : constantShelf.held tree id = frame.constants :=
  congrArg Prod.snd (FrameTree.lifts_of_frame held)

/-- A node lifts a var, or a constant, or nothing. -/
theorem Begins.lifting {frame : FrameId} {node : Node Expr} {before after : Store}
    (begins : Begins frame node before after) :
    (node.var? = none ∧ node.lifted? = none ∧ before.tree.SameLifts after.tree ∧
      before.names.issued ≤ after.names.issued) ∨
    (∃ name var, node.var? = some var ∧ node.lifted? = none ∧
      before.tree.liftVar before.names frame name = some (var, after.tree, after.names)) ∨
    ∃ value constant, node.var? = none ∧ node.lifted? = some (value, constant) ∧
      before.tree.liftConstant before.names frame value =
        some (constant, after.tree, after.names) := by
  cases begins with
  | var looked lifted =>
    refine .inr (.inl ⟨_, _, looked, ?_, lifted⟩)
    cases node <;> first | rfl | cases looked
  | constant lifting lifted => exact .inr (.inr ⟨_, _, rfl, rfl, lifted⟩)
  | literal plain => exact .inl ⟨rfl, rfl, .of_frames rfl, Nat.le_refl _⟩
  | localRef refers captured noted =>
    exact .inl ⟨rfl, rfl, (FrameTree.use_captures captured noted).sameLifts, Nat.le_refl _⟩
  | function plain drawn =>
    exact .inl ⟨rfl, rfl, .of_frames rfl, (NameSupply.issued_of_fresh drawn).2.2⟩
  | recur path aimed => exact .inl ⟨rfl, rfl, .of_frames rfl, Nat.le_refl _⟩
  | selfRef refers taken =>
    exact .inl ⟨rfl, rfl, (FrameTree.captureSelf_captures taken).sameLifts, Nat.le_refl _⟩
  | selfCall refers taken marked =>
    exact .inl ⟨rfl, rfl, (FrameTree.captureSelf_captures taken).sameLifts.trans
      (FrameTree.updateFrame_sameLifts marked fun _ => ⟨rfl, rfl⟩), Nat.le_refl _⟩
  | idle idle =>
    refine .inl ⟨?_, ?_, .of_frames rfl, Nat.le_refl _⟩ <;>
      cases node <;> first | rfl | cases idle

theorem varShelf_lawful : varShelf.Lawful := by
  intro frame home expr before after lives named begins
  rcases begins.lifting with ⟨notVar, _, same, later⟩ | ⟨name, var, looked, _, lifted⟩ |
    ⟨value, constant, notVar, _, lifted⟩
  · exact .of_same (by simp [varShelf, notVar]) (fun id => congrArg Prod.fst (same id)) later
  · obtain ⟨target, closest, others, _, registered⟩ := FrameTree.liftVar_some lifted
    cases lives.unique closest
    -- The entry under a name is that of the var itself.
    have own : var.name = name := registered.content_eq (named home)
    have use : varShelf.use? expr.node = some (name, var) := by simp [varShelf, looked, own]
    exact .of_registered use (fun id elsewhere => congrArg Prod.fst (others id elsewhere)) registered
  · obtain ⟨target, closest, others, aside, registered⟩ := FrameTree.liftConstant_some lifted
    cases lives.unique closest
    refine .of_same (by simp [varShelf, notVar]) (fun id => ?_) registered.issued_le
    by_cases same : id = home
    · subst same
      exact aside
    · exact congrArg Prod.fst (others id same)

theorem constantShelf_lawful : constantShelf.Lawful := by
  intro frame home expr before after lives _ begins
  rcases begins.lifting with ⟨_, plain, same, later⟩ | ⟨name, var, _, plain, lifted⟩ |
    ⟨value, constant, _, use, lifted⟩
  · exact .of_same (by simp [constantShelf, plain]) (fun id => congrArg Prod.snd (same id)) later
  · obtain ⟨target, closest, others, aside, registered⟩ := FrameTree.liftVar_some lifted
    cases lives.unique closest
    refine .of_same (by simp [constantShelf, plain]) (fun id => ?_) registered.issued_le
    by_cases same : id = home
    · subst same
      exact aside
    · exact congrArg Prod.snd (others id same)
  · obtain ⟨target, closest, others, _, registered⟩ := FrameTree.liftConstant_some lifted
    cases lives.unique closest
    exact .of_registered use (fun id elsewhere => congrArg Prod.snd (others id elsewhere)) registered

section Run

variable {κ ν : Type} [BEq κ] {shelf : Shelf κ ν} {config : Config} {frame home : FrameId}
  {steps : List Step} {before after : Store}

theorem Ends.sameLifts {node : Node Expr} (ends : Ends node before after) :
    before.tree.SameLifts after.tree ∧ after.names = before.names := by
  cases ends with
  | jump _ marked => exact ⟨FrameTree.updateFrame_sameLifts marked fun _ => ⟨rfl, rfl⟩, rfl⟩
  | idle => exact ⟨.of_frames rfl, rfl⟩

namespace Shelf

theorem Collects.of_sameLifts (same : before.tree.SameLifts after.tree)
    (names : after.names = before.names) : shelf.Collects [] before after :=
  .of_same (List.forall_mem_nil _) (fun id => congrArg shelf.pick (same id))
    (Nat.le_of_eq (congrArg NameSupply.issued names.symm))

/-- A run adds to every shelf what the nodes that it reaches use. -/
theorem Lawful.collects (lawful : shelf.Lawful) (run : Enacts config frame steps before after)
    (lives : before.tree.Home frame home) (named : shelf.Named before.tree) :
    shelf.Collects (homed home steps) before after := by
  induction run generalizing home with
  | @done _ store =>
    rw [homed_nil]
    exact .of_sameLifts (fun _ => rfl) rfl
  | @bind _ _ _ tree _ before after binds _ ih =>
    obtain ⟨_, _, _, _, bound⟩ := binds.bound
    have same := FrameTree.bind_sameLifts bound
    have step : shelf.Collects [] before { before with tree } := .of_sameLifts same rfl
    rw [homed_bind]
    exact step.trans (ih (lives.grows binds.grows.1) (named.congr same))
  | @count _ _ tree _ before after counts _ ih =>
    have same := FrameTree.counts_sameLifts counts
    have step : shelf.Collects [] before { before with tree } := .of_sameLifts same rfl
    rw [homed_count]
    exact step.trans (ih (lives.grows counts.grows.1) (named.congr same))
  | @block _ _ tree _ _ _ _ before between after opened recorded within _ inside rest =>
    have same := FrameTree.enter_sameLifts opened
    have step : shelf.Collects [] before { before with tree } := .of_sameLifts same rfl
    have entered := step.trans (inside (lives.opened opened recorded) (named.congr same))
    have grows := (FrameTree.enter_grows opened).1.trans within.grows
    rw [homed_block]
    exact entered.trans (rest (lives.grows grows) (entered.named named))
  | @visit _ _ _ _ before begun followed ended after _ begins within ends _ follows rest =>
    -- The node itself, then its script, then what follows.
    have here := lawful lives named begins
    have lives' := lives.grows begins.effect.grows.1
    have below := here.trans (follows lives' (here.named named))
    have last : shelf.Collects [] followed ended := .of_sameLifts ends.sameLifts.1 ends.sameLifts.2
    have all := below.trans last
    rw [List.append_nil] at all
    rw [homed_visit]
    exact all.trans (rest (lives'.grows (within.grows.trans ends.grows.1)) (all.named named))

end Shelf

end Run

/-! ### The result -/

/-- The names of the vars that are used at home in a frame, in the order of the walk. -/
def Expr.varNames (expr : Expr) (id : FrameId) : List Symbol :=
  expr.homed.filterMap fun node =>
    if node.1 = id then node.2.node.var?.map LiftedVar.name else none

/-- The value of a literal that is neither nil nor a boolean. -/
def Node.constant? : Node ε → Option Datum
  | literal value _ => if value.needsLifting then some value else none
  | _ => none

/-- The constants that are used at home in a frame, in the order of the walk. -/
def Expr.constants (expr : Expr) (id : FrameId) : List Datum :=
  expr.homed.filterMap fun node => if node.1 = id then node.2.node.constant? else none

/-- A literal has an entry exactly if it is neither nil nor a boolean. -/
theorem Begins.lifted_isSome {frame : FrameId} {node : Node Expr} {before after : Store}
    (begins : Begins frame node before after) {value : Datum} {lifted : Option LiftedConstant}
    (literal : node = .literal value lifted) : lifted.isSome = value.needsLifting := by
  subst literal
  cases begins with
  | literal plain => exact plain.symm
  | constant lifting => exact lifting.symm
  | var looked => cases looked
  | idle idle => cases idle

theorem Begins.constant?_eq {frame : FrameId} {node : Node Expr} {before after : Store}
    (begins : Begins frame node before after) : node.constant? = node.lifted?.map Prod.fst := by
  cases node with
  | literal value lifted =>
    have some_ := begins.lifted_isSome rfl
    cases lifted <;> simp_all [Node.constant?, Node.lifted?]
  | _ => rfl

section Result

variable {σ : Type} {analyzer : Analyzer σ} {depth : Nat} {form : Form} {session : Session σ}
  {analysis : Analysis}

/-- Every node of a result was begun, and its home is the root or a function. -/
theorem Session.begun_of_homed
    (analyzed : ((Session.analyze analyzer depth form).run session).1 = .ok analysis)
    {home : FrameId} {found : Expr} (member : (home, found) ∈ analysis.expr.homed) :
    (∃ frame, analysis.tree.frame? home = some frame ∧
      (home = FrameTree.rootId ∨ frame.isFunction = true)) ∧
    ∃ (around : FrameId) (earlier later : Store), Begins around found.node earlier later := by
  obtain ⟨names, run⟩ := Session.analyze_enacts analyzed
  rw [← Expr.homed_visit] at member
  obtain ⟨around, earlier, later, begins, lives⟩ := run.begun_of_homed (.root rfl rfl) member
  refine ⟨?_, around, earlier, later, begins⟩
  obtain ⟨frame, held, function | top⟩ := lives.owner
  · exact ⟨frame, held, .inr function⟩
  · refine ⟨frame, held, .inl ?_⟩
    -- All frames but the first were opened by the run.
    rcases Nat.eq_zero_or_pos home with root | new
    · exact root
    · obtain ⟨_, _, held', above, _⟩ := run.exists_parent new (FrameTree.frame?_lt held)
      cases held.symm.trans held'
      rw [top] at above
      cases above

/-- What stands on the shelves in a result: the keys of the nodes that are at home there, and their
entries. -/
theorem Shelf.Lawful.analyzed {κ ν : Type} [BEq κ] {shelf : Shelf κ ν} (lawful : shelf.Lawful)
    (clean : shelf.pick (.empty, .empty) = .empty)
    (analyzed : ((Session.analyze analyzer depth form).run session).1 = .ok analysis) :
    (∀ id, (shelf.held analysis.tree id).keys =
      (analysis.expr.homed.filterMap (shelf.keyAt id)).eraseDups) ∧
    (∀ id, ∀ entry ∈ (shelf.held analysis.tree id).entries, shelf.content entry.2 = entry.1 ∧
      ∃ found, (id, found) ∈ analysis.expr.homed ∧ shelf.use? found.node = some entry) ∧
    ∀ home found, (home, found) ∈ analysis.expr.homed → ∀ entry,
      shelf.use? found.node = some entry →
        (shelf.held analysis.tree home).get? entry.1 = some entry.2 ∧
        ∀ id, entry.2 ∈ (shelf.held analysis.tree id).values → id = home := by
  obtain ⟨names, run⟩ := Session.analyze_enacts analyzed
  have empty (id : FrameId) : shelf.held .initial id = .empty := by
    rw [held, ← clean]
    rcases id with _ | id <;> rfl
  have lives : FrameTree.initial.Home FrameTree.rootId FrameTree.rootId := .root rfl rfl
  have collects := lawful.collects run lives fun id entry member => by
    rw [empty] at member
    cases member
  rw [Expr.homed_visit] at collects
  have labelled := collects.labelled ⟨fun id entry member => by simp [empty, Registry.empty] at member,
    fun id entry member => by simp [empty, Registry.empty] at member⟩
  refine ⟨?_, ?_, ?_⟩
  · intro id
    simpa using collects.keys id [] (by rw [empty]; rfl)
  · intro id entry member
    rcases collects.used id entry member with member | used
    · rw [empty] at member
      cases member
    · exact used
  · intro home found member entry use
    have held := collects.carried home found member entry use
    obtain ⟨own, among, _, same⟩ := Registry.mem_of_get? held
    refine ⟨held, fun id member => ?_⟩
    obtain ⟨other, among', same'⟩ := List.mem_map.mp member
    exact labelled.apart id other among' home own among (by rw [same', same])

/-- The vars and constants of a function, or of the root, are those of the nodes at home there, each
once and in the order of the walk. Every entry is used by such a node. Every node has the entry of its
home, which no other frame has; a literal that is nil or a boolean has none. -/
theorem Session.analyze_lifting
    (analyzed : ((Session.analyze analyzer depth form).run session).1 = .ok analysis) :
    analysis.expr.homed.map Prod.snd = analysis.expr.walk ∧
    (∀ id frame, analysis.tree.frame? id = some frame →
      frame.vars.keys = (analysis.expr.varNames id).eraseDups ∧
      frame.constants.keys = (analysis.expr.constants id).eraseDups ∧
      (∀ entry ∈ frame.vars.entries, entry.2.name = entry.1 ∧
        ∃ found, (id, found) ∈ analysis.expr.homed ∧ found.node.var? = some entry.2) ∧
      ∀ entry ∈ frame.constants.entries, entry.2.value = entry.1 ∧
        ∃ found, (id, found) ∈ analysis.expr.homed ∧
          found.node = .literal entry.1 (some entry.2)) ∧
    ∀ home found, (home, found) ∈ analysis.expr.homed →
      ∃ frame, analysis.tree.frame? home = some frame ∧
        (home = FrameTree.rootId ∨ frame.isFunction = true) ∧
        (∀ var, found.node.var? = some var → frame.vars.get? var.name = some var ∧
          ∀ id other, analysis.tree.frame? id = some other → var ∈ other.vars.values → id = home) ∧
        ∀ value lifted, found.node = .literal value lifted →
          lifted = (if value.needsLifting then frame.constants.get? value else none) ∧
          lifted.isSome = value.needsLifting ∧
          ∀ constant ∈ lifted, ∀ id other, analysis.tree.frame? id = some other →
            constant ∈ other.constants.values → id = home := by
  obtain ⟨varKeys, varEntries, varUses⟩ := varShelf_lawful.analyzed rfl analyzed
  obtain ⟨keys, entries, uses⟩ := constantShelf_lawful.analyzed rfl analyzed
  refine ⟨Pass.map_snd_nodes _ _ _, fun id frame held => ?_, fun home found member => ?_⟩
  · have vars := varShelf_held held
    have constants := constantShelf_held held
    refine ⟨?_, ?_, ?_, ?_⟩
    · rw [← vars, varKeys]
      congr 1
      refine List.filterMap_congr fun node _ => ?_
      simp [Shelf.keyAt, varShelf, Function.comp_def]
    · rw [← constants, keys]
      congr 1
      refine List.filterMap_congr fun node among => ?_
      obtain ⟨_, _, _, _, begins⟩ := Session.begun_of_homed analyzed among
      rw [begins.constant?_eq]
      rfl
    · intro entry member
      obtain ⟨own, found, among, use⟩ := varEntries id entry (vars ▸ member)
      obtain ⟨var, looked, rfl⟩ := Option.map_eq_some_iff.mp use
      exact ⟨own, found, among, looked⟩
    · intro entry member
      obtain ⟨own, found, among, use⟩ := entries id entry (constants ▸ member)
      exact ⟨own, found, among, Node.lifted?_eq_some.mp use⟩
  · obtain ⟨⟨frame, held, owner⟩, _, _, _, begins⟩ := Session.begun_of_homed analyzed member
    refine ⟨frame, held, owner, ?_, ?_⟩
    · intro var looked
      have use : varShelf.use? found.node = some (var.name, var) := by simp [varShelf, looked]
      obtain ⟨carried, apart⟩ := varUses home found member _ use
      rw [varShelf_held held] at carried
      refine ⟨carried, fun id other held' among => apart id ?_⟩
      rw [varShelf_held held']
      exact among
    · intro value lifted literal
      have isSome := begins.lifted_isSome literal
      cases lifted with
      | none =>
        have plain : value.needsLifting = false := isSome.symm
        exact ⟨by simp [plain], isSome, fun constant none_ => by cases none_⟩
      | some constant =>
        have lifting : value.needsLifting = true := isSome.symm
        have use : constantShelf.use? found.node = some (value, constant) :=
          Node.lifted?_eq_some.mpr literal
        obtain ⟨carried, apart⟩ := uses home found member _ use
        rw [constantShelf_held held] at carried
        refine ⟨by simp [lifting, carried], isSome, fun _ same id other held' among => ?_⟩
        cases same
        apply apart id
        rw [constantShelf_held held']
        exact among

end Result

/-- `(do 1 (fn* [] (def x 1) x 1 nil))`. -/
def hoarder : Form :=
  let symbol (name : String) : Form := .symbol (.simple name) .synthetic
  let list (items : List Form) : Form := .list items .synthetic
  let one : Form := .atom (.int 1) .synthetic
  list [symbol "do", one, list [symbol "fn*", .vector [] .synthetic,
    list [symbol "def", symbol "x", one], symbol "x", one, .atom .nil .synthetic]]

/-- In `hoarder` the function lifts the var and the number once, though it uses both twice, and the
number has an entry at the root as well. -/
theorem hoarder_lifting : ∃ analysis root function,
    ((Session.analyze ⟨Namespaces.host, .standard⟩ 5 hoarder).run (.start (.inside "user"))).1 =
      .ok analysis ∧
    analysis.tree.frame? 0 = some root ∧ analysis.tree.frame? 1 = some function ∧
    function.vars.keys = [.qualified "user" "x"] ∧ root.vars.keys = [] ∧
    function.constants.keys.map Datum.int? = [some 1] ∧
    root.constants.keys.map Datum.int? = [some 1] := by
  have computed : (((Session.analyze ⟨Namespaces.host, .standard⟩ 5 hoarder).run
      (.start (.inside "user"))).1.toOption.map fun analysis =>
        (analysis.tree.frames.size, [0, 1].map fun id =>
          (analysis.expr.varNames id, (analysis.expr.constants id).eraseDups.map Datum.int?))) =
      some (2, [([], [some 1]),
        ([.qualified "user" "x", .qualified "user" "x"], [some 1])]) := by
    decide +kernel
  simp only [Option.map_eq_some_iff, Prod.mk.injEq, List.map_cons, List.cons.injEq] at computed
  obtain ⟨analysis, result, size, ⟨varsOfRoot, ofRoot⟩, ⟨vars, constants⟩, _⟩ := computed
  have analyzed := ok_of_toOption result
  have root : analysis.tree.frame? 0 = some analysis.tree.frames[0] :=
    Array.getElem?_eq_getElem (by omega)
  have function : analysis.tree.frame? 1 = some analysis.tree.frames[1] :=
    Array.getElem?_eq_getElem (by omega)
  obtain ⟨_, exact_, _⟩ := Session.analyze_lifting analyzed
  obtain ⟨rootVars, rootConstants, _⟩ := exact_ 0 _ root
  obtain ⟨functionVars, functionConstants, _⟩ := exact_ 1 _ function
  refine ⟨analysis, _, _, analyzed, root, function, ?_, ?_, ?_, ?_⟩
  · rw [functionVars, vars]
    rfl
  · rw [rootVars, varsOfRoot]
    rfl
  · rw [functionConstants, constants]
  · rw [rootConstants, ofRoot]

end LispScope
