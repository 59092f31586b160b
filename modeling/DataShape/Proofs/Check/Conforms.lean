import DataShape.Proofs.Names.Acceptance

/-!
# What schemas mean

`Conforms` says which values a schema describes.  It is the least relation that
follows the shape of the schema, where a reference stands for the bodies of its
name.  Nothing in it is a walk: there is no order, no limit, and no table.

Where the bodies come from is left open.  A schema *accepts* a value if the value
conforms to it with the named types of the schema itself as bodies, and a value
*meets* a schema under a table if it conforms with the bodies of the table.  For
a schema without clashes both are the same (`accepts_iff_meets`): stripping moves
every body into the table, and a named type means what its body means.
-/

namespace DataShape

/-- The value is one that the schema describes, where references stand for
`bodies`. -/
inductive Conforms (bodies : String → Schema → Prop) : Schema → Value → Prop
  /-- A scalar of the kind. -/
  | kind {p : Primitive} {v : Value} : p.kind.accepts v = true → Conforms bodies (.primitive p) v
  /-- Null, where it is admitted. -/
  | null {p : Primitive} : p.nullable = true → Conforms bodies (.primitive p) .null
  /-- A list of conforming items. -/
  | list {element : Schema} {items : List Value} :
      (∀ v ∈ items, Conforms bodies element v) → Conforms bodies (.list element) (.list items)
  /-- A list of the same length that conforms position by position. -/
  | tuple {elements : List Schema} {items : List Value} :
      elements.length = items.length →
      (∀ x ∈ elements.zip items, Conforms bodies x.1 x.2) →
      Conforms bodies (.tuple elements) (.list items)
  /-- A dictionary with all required keys.  Something is declared for each of its
  keys, and the value under the key conforms to that. -/
  | object {fields : List (Field Schema)} {wildcard : Option Schema} {entries : Entries Value} :
      (∀ f ∈ fields, f.optional = false → f.name ∈ entries.keys) →
      (∀ x ∈ entries, Schema.forKey? fields wildcard x.1 ≠ none) →
      (∀ x ∈ entries, ∀ s, Schema.forKey? fields wildcard x.1 = some s → Conforms bodies s x.2) →
      Conforms bodies (.object fields wildcard) (.dict entries)
  /-- What one of the alternatives describes. -/
  | choice {alternatives : List Schema} {s : Schema} {v : Value} :
      s ∈ alternatives → Conforms bodies s v → Conforms bodies (.choice alternatives) v
  /-- What the body describes. -/
  | named {name : String} {body : Schema} {v : Value} :
      Conforms bodies body v → Conforms bodies (.named name body) v
  /-- What a body of the name describes. -/
  | reference {name : String} {body : Schema} {v : Value} :
      bodies name body → Conforms bodies body v → Conforms bodies (.reference name) v
  /-- The value itself. -/
  | literal {expected v : Value} : v.same expected = true → Conforms bodies (.literal expected) v

namespace Schema

/-- A named type of a schema gives a name a body. -/
def Defines (s : Schema) (name : String) (body : Schema) : Prop := Part (.named name body) s

/-- A schema describes a value, with its own named types. -/
def Accepts (s : Schema) (v : Value) : Prop := Conforms s.Defines s v

/-- The schemas that refuse null themselves: neither nullable nor a choice or a
literal, which judge a value as a whole. -/
def refusesNull : Schema → Bool
  | .primitive p => !p.nullable
  | .list _ | .tuple _ | .object _ _ => true
  | _ => false

end Schema

namespace Table

/-- A value is what a schema describes, with the bodies of a table. -/
def Meets (table : Table) (s : Schema) (v : Value) : Prop :=
  Conforms (fun name body => Entries.find? name table = some body) s v

end Table

variable {bodies bodies' : String → Schema → Prop} {table : Table} {s t : Schema} {v : Value}

theorem not_conforms_null (h : s.refusesNull = true) : ¬ Conforms bodies s .null := by
  intro conforms
  cases conforms with
  | kind accepts => simp [Kind.accepts] at accepts
  | null nullable => simp [Schema.refusesNull, nullable] at h
  | choice | named | reference | literal => simp [Schema.refusesNull] at h

/-! ## References -/

/-- A reference means what its body means. -/
theorem Table.meets_reference_iff {name : String} {body : Schema}
    (found : Entries.find? name table = some body) :
    table.Meets (.reference name) v ↔ table.Meets body v := by
  constructor
  · intro h
    cases h with
    | reference found' h =>
        cases found.symm.trans found'
        exact h
  · exact .reference found

/-- A schema means what it resolves to. -/
theorem Table.meets_resolve_iff (found : table.resolve s = .ok t) :
    table.Meets s v ↔ table.Meets t v := by
  refine follow_ind (motive := fun u => table.Meets s v ↔ table.Meets u v) ?_ found Iff.rfl
  intro name body lookup same
  exact same.trans (meets_reference_iff lookup)

/-! ## Stripping -/

/-- What conforms to a schema conforms to the stripped schema, with stripped bodies. -/
theorem Conforms.strip (maps : ∀ name body, bodies name body → bodies' name body.strip)
    (h : Conforms bodies s v) : Conforms bodies' s.strip v := by
  induction h with
  | kind accepts => exact .kind accepts
  | null nullable => exact .null nullable
  | list _ ih => exact .list ih
  | tuple length _ ih =>
      rw [Schema.strip, Schema.stripAll_eq_map]
      refine .tuple (by rwa [List.length_map]) fun x mem => ?_
      rw [List.zip_map_left] at mem
      obtain ⟨y, inside, rfl⟩ := List.mem_map.1 mem
      exact ih y inside
  | object required declared _ ih =>
      refine .object (fun f mem => ?_) (fun x mem => ?_) fun x mem t found => ?_
      · rw [Schema.stripFields_eq_map] at mem
        obtain ⟨g, inside, rfl⟩ := List.mem_map.1 mem
        exact required g inside
      · rw [forKey?_strip]
        simpa using declared x mem
      · rw [forKey?_strip, Option.map_eq_some_iff] at found
        obtain ⟨s, found, rfl⟩ := found
        exact ih x mem s found
  | choice mem _ ih =>
      rw [Schema.strip, Schema.stripAll_eq_map]
      exact .choice (List.mem_map_of_mem mem) ih
  | named _ ih => exact ih
  | reference bound _ ih => exact .reference (maps _ _ bound) ih
  | literal same => exact .literal same

/-- To tell what a schema means, named types around it can be taken away. -/
theorem conforms_of_unwrapped (plain : ∀ c : Schema, (∀ name body, c ≠ .named name body) →
    c.strip = t → Conforms bodies c v) (eq : s.strip = t) : Conforms bodies s v := by
  induction s with
  | named name body ih => exact .named (ih eq)
  | primitive | list | tuple | object | choice | reference | literal => exact plain _ (by simp) eq

/-- What conforms to the stripped schema conforms to the schema, if every body is
a stripped one. -/
theorem Conforms.of_strip
    (lifts : ∀ name t, bodies' name t → ∃ body, bodies name body ∧ body.strip = t)
    (h : Conforms bodies' t v) (eq : s.strip = t) : Conforms bodies s v := by
  -- The derivation ends with the stripped schema, so named types around `s` go first.
  induction h generalizing s with
  | kind accepts =>
      refine conforms_of_unwrapped (fun c plain eq => ?_) eq
      cases c with
      | primitive q => cases eq; exact .kind accepts
      | named name body => exact absurd rfl (plain name body)
      | _ => simp [Schema.strip] at eq
  | null nullable =>
      refine conforms_of_unwrapped (fun c plain eq => ?_) eq
      cases c with
      | primitive q => cases eq; exact .null nullable
      | named name body => exact absurd rfl (plain name body)
      | _ => simp [Schema.strip] at eq
  | list _ ih =>
      refine conforms_of_unwrapped (fun c plain eq => ?_) eq
      cases c with
      | list element =>
          rw [Schema.strip, Schema.list.injEq] at eq
          exact .list fun v mem => ih v mem eq
      | named name body => exact absurd rfl (plain name body)
      | _ => simp [Schema.strip] at eq
  | tuple length _ ih =>
      refine conforms_of_unwrapped (fun c plain eq => ?_) eq
      cases c with
      | tuple elements =>
          rw [Schema.strip, Schema.tuple.injEq, Schema.stripAll_eq_map] at eq
          subst eq
          rw [List.length_map] at length
          refine .tuple length fun x mem => ?_
          refine ih (x.1.strip, x.2) ?_ rfl
          rw [List.zip_map_left]
          exact List.mem_map_of_mem mem
      | named name body => exact absurd rfl (plain name body)
      | _ => simp [Schema.strip] at eq
  | object required declared _ ih =>
      refine conforms_of_unwrapped (fun c plain eq => ?_) eq
      cases c with
      | object fields wildcard =>
          rw [Schema.strip, Schema.object.injEq] at eq
          obtain ⟨rfl, rfl⟩ := eq
          refine .object (fun f mem => ?_) (fun x mem => ?_) fun x mem s found => ?_
          · refine required ⟨f.name, f.optional, f.schema.strip⟩ ?_
            rw [Schema.stripFields_eq_map]
            exact List.mem_map_of_mem mem
          · have known := declared x mem
            rw [forKey?_strip] at known
            simpa using known
          · refine ih x mem s.strip ?_ rfl
            rw [forKey?_strip, found]
            rfl
      | named name body => exact absurd rfl (plain name body)
      | _ => simp [Schema.strip] at eq
  | choice mem _ ih =>
      refine conforms_of_unwrapped (fun c plain eq => ?_) eq
      cases c with
      | choice alternatives =>
          rw [Schema.strip, Schema.choice.injEq, Schema.stripAll_eq_map] at eq
          subst eq
          obtain ⟨s, inside, rfl⟩ := List.mem_map.1 mem
          exact .choice inside (ih rfl)
      | named name body => exact absurd rfl (plain name body)
      | _ => simp [Schema.strip] at eq
  | named _ _ =>
      refine conforms_of_unwrapped (fun c plain eq => ?_) eq
      cases c with
      | named name body => exact absurd rfl (plain name body)
      | _ => simp [Schema.strip] at eq
  | reference bound _ ih =>
      refine conforms_of_unwrapped (fun c plain eq => ?_) eq
      cases c with
      | reference name =>
          rw [Schema.strip, Schema.reference.injEq] at eq
          subst eq
          obtain ⟨body, bound, stripped⟩ := lifts _ _ bound
          exact .reference bound (ih stripped)
      | named name body => exact absurd rfl (plain name body)
      | _ => simp [Schema.strip] at eq
  | literal same =>
      refine conforms_of_unwrapped (fun c plain eq => ?_) eq
      cases c with
      | literal expected => cases eq; exact .literal same
      | named name body => exact absurd rfl (plain name body)
      | _ => simp [Schema.strip] at eq

/-- A schema without clashes accepts what its stripped form and its table describe. -/
theorem Schema.accepts_iff_meets (distinct : s.names.Nodup) :
    s.Accepts v ↔ s.table.Meets s.strip v := by
  constructor
  · exact Conforms.strip fun name body part => (find?_table_iff distinct).2 ⟨body, part, rfl⟩
  · intro h
    exact .of_strip (fun name t found => (find?_table_iff distinct).1 found) h rfl

end DataShape
