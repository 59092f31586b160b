import DataShape.Proofs.Names.Chain

/-!
# Flattened alternatives

An alternative of a choice may be a choice again, or a reference that leads to one.  To
*flatten* alternatives is to put the body in the place of a reference and the
alternatives of a choice in the place of the choice, always for the first alternative
that is left.  What is neither stays, in its order.

Alternatives flatten in one way at most (`Flattens.unique`), and piece by piece
(`Flattens.append`, `Flattens.of_append`).
-/

namespace DataShape

namespace Table

/-- Alternatives without their references and nested choices, depth first and from left
to right. -/
inductive Flattens (table : Table) : List Schema → List Schema → Prop
  | nil : Flattens table [] []
  /-- A reference is replaced by its body. -/
  | reference {name : String} {body : Schema} {rest flat : List Schema} :
      Entries.find? name table = some body → Flattens table (body :: rest) flat →
      Flattens table (.reference name :: rest) flat
  /-- A choice is replaced by its alternatives. -/
  | choice {nested rest flat : List Schema} : Flattens table (nested ++ rest) flat →
      Flattens table (.choice nested :: rest) flat
  /-- Everything else is kept. -/
  | leaf {s : Schema} {rest flat : List Schema} : (∀ name, s ≠ .reference name) →
      (∀ nested, s ≠ .choice nested) → Flattens table rest flat →
      Flattens table (s :: rest) (s :: flat)

variable {table : Table} {s t : Schema} {as bs flat flat' : List Schema}

namespace Flattens

theorem unique (h : table.Flattens as flat) (h' : table.Flattens as flat') : flat = flat' := by
  induction h generalizing flat' with
  | nil =>
      cases h'
      rfl
  | reference found _ ih =>
      cases h' with
      | reference found' h' =>
          cases found.symm.trans found'
          exact ih h'
      | leaf reference => exact absurd rfl (reference _)
  | choice _ ih =>
      cases h' with
      | choice h' => exact ih h'
      | leaf _ choice => exact absurd rfl (choice _)
  | leaf reference choice _ ih =>
      cases h' with
      | reference => exact absurd rfl (reference _)
      | choice => exact absurd rfl (choice _)
      | leaf _ _ h' => exact congrArg _ (ih h')

theorem append (h : table.Flattens as flat) (h' : table.Flattens bs flat') :
    table.Flattens (as ++ bs) (flat ++ flat') := by
  induction h with
  | nil => exact h'
  | reference found _ ih => exact .reference found ih
  | choice _ ih =>
      rw [List.append_assoc] at ih
      exact .choice ih
  | leaf reference choice _ ih => exact .leaf reference choice ih

theorem of_append (h : table.Flattens (as ++ bs) flat) : ∃ front back, flat = front ++ back ∧
    table.Flattens as front ∧ table.Flattens bs back := by
  generalize whole : as ++ bs = cs at h
  induction h generalizing as with
  | nil =>
      obtain ⟨rfl, rfl⟩ := List.append_eq_nil_iff.1 whole
      exact ⟨[], [], rfl, .nil, .nil⟩
  | @reference name body rest flat found h ih =>
      rcases List.append_eq_cons_iff.1 whole with ⟨rfl, rfl⟩ | ⟨as, rfl, rfl⟩
      · exact ⟨[], flat, rfl, .nil, .reference found h⟩
      · obtain ⟨front, back, rfl, first, second⟩ := @ih (body :: as) rfl
        exact ⟨front, back, rfl, .reference found first, second⟩
  | @choice nested rest flat h ih =>
      rcases List.append_eq_cons_iff.1 whole with ⟨rfl, rfl⟩ | ⟨as, rfl, rfl⟩
      · exact ⟨[], flat, rfl, .nil, .choice h⟩
      · obtain ⟨front, back, rfl, first, second⟩ :=
          @ih (nested ++ as) (List.append_assoc ..)
        exact ⟨front, back, rfl, .choice first, second⟩
  | @leaf s rest flat reference choice h ih =>
      rcases List.append_eq_cons_iff.1 whole with ⟨rfl, rfl⟩ | ⟨as, rfl, rfl⟩
      · exact ⟨[], s :: flat, rfl, .nil, .leaf reference choice h⟩
      · obtain ⟨front, back, rfl, first, second⟩ := ih rfl
        exact ⟨s :: front, back, rfl, .leaf reference choice first, second⟩

end Flattens

/-- An alternative can be replaced by what its references lead to. -/
theorem Follows.flattens_iff (h : table.Follows s t) :
    table.Flattens (s :: as) flat ↔ table.Flattens (t :: as) flat := by
  induction h with
  | here => exact Iff.rfl
  | body found _ ih =>
      refine ⟨fun flattens => ?_, fun flattens => .reference found (ih.2 flattens)⟩
      cases flattens with
      | reference found' flattens =>
          cases found.symm.trans found'
          exact ih.1 flattens
      | leaf reference => exact absurd rfl (reference _)

/-- A choice is flattened by flattening its alternatives. -/
theorem flattens_choice_iff {nested : List Schema} :
    table.Flattens (.choice nested :: as) flat ↔ table.Flattens (nested ++ as) flat := by
  refine ⟨fun flattens => ?_, .choice⟩
  cases flattens with
  | choice flattens => exact flattens
  | leaf _ choice => exact absurd rfl (choice _)

/-- What is neither a reference nor a choice is the only thing that it flattens to. -/
theorem flattens_leaf_iff (reference : ∀ name, s ≠ .reference name)
    (choice : ∀ nested, s ≠ .choice nested) :
    table.Flattens (s :: as) flat ↔ ∃ rest, flat = s :: rest ∧ table.Flattens as rest := by
  constructor
  · intro flattens
    cases flattens with
    | reference => exact absurd rfl (reference _)
    | choice => exact absurd rfl (choice _)
    | leaf _ _ flattens => exact ⟨_, rfl, flattens⟩
  · rintro ⟨rest, rfl, flattens⟩
    exact .leaf reference choice flattens

end Table

end DataShape
