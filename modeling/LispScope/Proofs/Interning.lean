import LispScope.Proofs.Qualification

/-!
# Interning a var

A definition asks for the var of its name in the current namespace. Main statement:
`Namespaces.internVar_creates`, which says what the answer is, what becomes of every var, and when the
definition can be seen under its own name.

Whether the var exists is looked up as any symbol is, aliases included, while a new var goes into the
tables under the name that was given. The two agree unless the current namespace is *eclipsed*: its own
name is an alias there for another namespace. Then a qualified definition does not see the var that it is
about and puts a plain one in its place.
-/
namespace LispScope

/-- Storing the value that was stored last changes nothing. -/
theorem Table.insert_insert {κ ν : Type} [DecidableEq κ] (table : Table κ ν) (key : κ) (value : ν) :
    (table.insert key value).insert key value = table.insert key value := by
  simp [insert]

namespace Namespaces

variable {spaces : Namespaces} {symbol : Symbol}

/-- The name of the current namespace stands for another one. -/
def Eclipsed (spaces : Namespaces) : Prop := spaces.meaning spaces.current ≠ spaces.current

instance (spaces : Namespaces) : Decidable spaces.Eclipsed :=
  inferInstanceAs (Decidable (spaces.meaning spaces.current ≠ spaces.current))

/-- A symbol that a definition in the current namespace may have. -/
def Defines (spaces : Namespaces) (symbol : Symbol) : Prop :=
  ∀ ns ∈ symbol.ns, ns = spaces.current

instance (spaces : Namespaces) (symbol : Symbol) : Decidable (spaces.Defines symbol) :=
  inferInstanceAs (Decidable (∀ ns ∈ symbol.ns, ns = spaces.current))

theorem Defines.owner (home : spaces.Defines symbol) : spaces.owner symbol = spaces.current := by
  rcases symbol with ⟨_ | ns, name⟩
  · rfl
  · exact home ns rfl

theorem Defines.eq_withNs (home : spaces.Defines symbol) (named : symbol.isQualified = true) :
    symbol = symbol.withNs spaces.current := by
  rcases symbol with ⟨_ | ns, name⟩
  · cases named
  · simp [Symbol.withNs, home ns rfl]

theorem qualify_own_iff :
    spaces.qualify (symbol.withNs spaces.current) = symbol.withNs spaces.current ↔
      ¬ spaces.Eclipsed := by
  rw [qualify_withNs]
  simp [Eclipsed, Symbol.withNs]

/-- An unqualified symbol stands for the var of the current namespace if there is one. -/
theorem qualify_of_held (bare : symbol.isQualified = false)
    (held : (spaces.vars.get? (symbol.withNs spaces.current)).isSome = true) :
    spaces.qualify symbol = symbol.withNs spaces.current := by
  rcases symbol with ⟨_ | ns, name⟩
  · have here : spaces.hasVar spaces.current name = true := held
    simp [qualify, here]
  · cases bare

/-- What a definition stands for if its var exists. -/
theorem qualify_eq_own_iff (home : spaces.Defines symbol)
    (held : (spaces.vars.get? (symbol.withNs spaces.current)).isSome = true) :
    spaces.qualify symbol = symbol.withNs spaces.current ↔
      ¬ (symbol.isQualified = true ∧ spaces.Eclipsed) := by
  cases named : symbol.isQualified with
  | false => simp [qualify_of_held named held]
  | true =>
    have own : spaces.qualify (symbol.withNs spaces.current) = symbol.withNs spaces.current ↔
        ¬ spaces.Eclipsed := qualify_own_iff
    rw [← home.eq_withNs named] at own
    rw [← home.eq_withNs named]
    simpa using own

/-- What is found under the name of the definition itself is handed out; in all other cases a plain var is
put under that name. -/
theorem internVar_eq (home : spaces.Defines symbol) :
    internVar symbol spaces =
      match spaces.vars.get? (symbol.withNs spaces.current) with
      | some expander =>
        if spaces.qualify symbol = symbol.withNs spaces.current then
          (⟨symbol.withNs spaces.current, expander.isSome⟩, spaces)
        else spaces.defineVar symbol
      | none => spaces.defineVar symbol := by
  obtain ⟨ns, taken⟩ := spaces.exists_qualify_eq symbol
  have same : symbol.withNs ns = symbol.withNs spaces.current ↔ ns = spaces.current := by
    simp [Symbol.withNs]
  simp only [internVar, findVar, lookup, taken, home.owner, same]
  by_cases own : ns = spaces.current
  · subst own
    cases spaces.vars.get? (symbol.withNs spaces.current) <;> simp
  -- What belongs to another namespace does not count, whether it exists or not.
  · cases spaces.vars.get? (symbol.withNs ns) <;>
      cases spaces.vars.get? (symbol.withNs spaces.current) <;> simp [own]

/-- What interning can do: the var stays as it is, or a plain one is put in its place, because there is
none or because the definition does not see it. -/
theorem internVar_cases (home : spaces.Defines symbol) :
    (∃ expander, spaces.vars.get? (symbol.withNs spaces.current) = some expander ∧
      ¬ (symbol.isQualified = true ∧ spaces.Eclipsed) ∧
      internVar symbol spaces = (⟨symbol.withNs spaces.current, expander.isSome⟩, spaces)) ∨
    ((spaces.vars.get? (symbol.withNs spaces.current) = none ∨
        symbol.isQualified = true ∧ spaces.Eclipsed) ∧
      internVar symbol spaces = (⟨symbol.withNs spaces.current, false⟩,
        { spaces with vars := spaces.vars.insert (symbol.withNs spaces.current) none })) := by
  have defined : spaces.defineVar symbol = (⟨symbol.withNs spaces.current, false⟩,
      { spaces with vars := spaces.vars.insert (symbol.withNs spaces.current) none }) := by
    simp [defineVar, define, home.owner]
  rw [internVar_eq home]
  cases held : spaces.vars.get? (symbol.withNs spaces.current) with
  | none => exact .inr ⟨.inl rfl, defined⟩
  | some expander =>
    have sees := qualify_eq_own_iff home (by rw [held]; rfl)
    by_cases hidden : symbol.isQualified = true ∧ spaces.Eclipsed
    · exact .inr ⟨.inr hidden, by rw [← defined]; exact if_neg fun seen => sees.mp seen hidden⟩
    · exact .inl ⟨expander, rfl, hidden, if_pos (sees.mpr hidden)⟩

/-- A var is found under its own name exactly if the current namespace is not eclipsed. -/
theorem findVar_own_iff {expander : Option Expander}
    (held : spaces.vars.get? (symbol.withNs spaces.current) = some expander) :
    spaces.findVar (symbol.withNs spaces.current) =
        some ⟨symbol.withNs spaces.current, expander.isSome⟩ ↔ ¬ spaces.Eclipsed := by
  constructor
  · intro found
    obtain ⟨_, _, same⟩ := lookup_eq_some_of_findVar found
    exact qualify_own_iff.mp (congrArg Var.name same).symm
  · intro clear
    rw [findVar, lookup, qualify_own_iff.mpr clear, held]
    rfl

/-- A definition gets the var of its name in the current namespace. Apart from that var nothing changes. A
new var is plain, and an existing one stays as it is, unless it is a macro that a qualified definition in
an eclipsed namespace does not see: then it becomes a plain var. The var is found under its own name
exactly if the namespace is not eclipsed, and interning it again gives it again and changes nothing. -/
theorem internVar_creates {after : Namespaces} {var : Var} (home : spaces.Defines symbol)
    (interned : internVar symbol spaces = (var, after)) :
    var.name = symbol.withNs spaces.current ∧
    after = { spaces with vars := after.vars } ∧
    (∀ name, name ≠ var.name → after.vars.get? name = spaces.vars.get? name) ∧
    (spaces.vars.get? var.name = none → after.vars.get? var.name = some none) ∧
    (∀ expander, spaces.vars.get? var.name = some expander →
      if expander.isSome = true ∧ symbol.isQualified = true ∧ spaces.Eclipsed then
        after.vars.get? var.name = some none
      else after.vars.get? var.name = some expander) ∧
    (after.findVar var.name = some var ↔ ¬ spaces.Eclipsed) ∧
    internVar symbol after = (var, after) := by
  rcases internVar_cases home with ⟨expander, held, seen, answer⟩ | ⟨reason, answer⟩
  · obtain ⟨rfl, rfl⟩ := Prod.mk.inj (answer.symm.trans interned)
    refine ⟨rfl, rfl, fun _ _ => rfl, ?_, ?_, findVar_own_iff held, answer⟩
    · intro absent
      rw [held] at absent
      cases absent
    · intro other held'
      rw [if_neg fun damaged => seen damaged.2]
      exact held'
  · obtain ⟨rfl, grown⟩ := Prod.mk.inj (answer.symm.trans interned)
    have stored : after.vars.get? (symbol.withNs after.current) = some none := by
      rw [← grown]
      exact spaces.vars.get?_insert_self (symbol.withNs spaces.current) none
    have visible := findVar_own_iff stored
    -- Now there is a var: it is found as it is, or stored once more.
    have again : internVar symbol after = (⟨symbol.withNs after.current, false⟩, after) := by
      have home' : after.Defines symbol := grown ▸ home
      rcases internVar_cases home' with ⟨expander, held, _, again⟩ | ⟨_, again⟩
      · cases held.symm.trans stored
        exact again
      · rw [again, ← grown]
        simp only [Table.insert_insert]
    subst grown
    refine ⟨rfl, rfl, ?_, fun _ => stored, ?_, visible, again⟩
    · intro name differs
      exact spaces.vars.get?_insert_of_ne none differs
    · intro expander held
      have hidden : symbol.isQualified = true ∧ spaces.Eclipsed := by
        simpa [held] using reason
      cases expander with
      | none => simpa using stored
      | some expander => simpa [hidden] using stored

/-- The namespace `user` with a macro `m`, where `user` is an alias for `other`. -/
def eclipse : Namespaces :=
  let spaces := ((inside "user").defineMacro (.simple "m") (.constant (.atom .nil .synthetic))).2
  spaces.addAlias "user" "other"

/-- In `eclipse` the definition `user/m` makes a plain var of the macro and is not found under its own
name, while the definition `m` leaves the macro alone. -/
theorem eclipse_creates :
    (eclipse.vars.get? (.qualified "user" "m")).map Option.isSome = some true ∧
    ((internVar (.qualified "user" "m") eclipse).2.vars.get? (.qualified "user" "m")).map
      Option.isSome = some false ∧
    (internVar (.qualified "user" "m") eclipse).2.findVar (.qualified "user" "m") ≠
      some (internVar (.qualified "user" "m") eclipse).1 ∧
    ((internVar (.simple "m") eclipse).2.vars.get? (.qualified "user" "m")).map
      Option.isSome = some true := by
  have held : eclipse.vars.get? (.qualified "user" "m") =
      some (some (.constant (.atom .nil .synthetic))) := rfl
  obtain ⟨named, _, _, _, becomes, found, _⟩ :=
    @internVar_creates eclipse (.qualified "user" "m") _ _ (by decide) rfl
  obtain ⟨named', _, _, _, becomes', _⟩ :=
    @internVar_creates eclipse (.simple "m") _ _ (by decide) rfl
  rw [named] at becomes found
  rw [named'] at becomes'
  refine ⟨by rw [held]; rfl, ?_, ?_, ?_⟩
  · have lost := becomes _ held
    rw [if_pos (by decide)] at lost
    exact congrArg (Option.map Option.isSome) lost
  · intro visible
    exact absurd (found.mp visible) (by decide)
  · have kept := becomes' _ held
    rw [if_neg (by decide)] at kept
    exact congrArg (Option.map Option.isSome) kept

end Namespaces

end LispScope
