import DataShape.Proofs.Schema.Part

/-!
# Stripped schemas

`strip` replaces every named type by its body, and `namedTypes` lists the named
types of a schema, those inside a body before the body itself and otherwise from
left to right.  The *table* of a schema gives every name its stripped body.

Nothing else changes: references stay where they are (`part_reference_strip`),
the exposed names are the same (`unnested_strip`), and every body of the table is
a part of the stripped schema (`part_of_mem_table`).
-/

namespace DataShape

namespace Schema

/-! ## Definitions -/

mutual

/-- The schema with every named type replaced by its stripped body. -/
def strip : Schema → Schema
  | .primitive p => .primitive p
  | .list element => .list (strip element)
  | .tuple elements => .tuple (stripAll elements)
  | .object fields wildcard => .object (stripFields fields) (stripWildcard wildcard)
  | .choice alternatives => .choice (stripAll alternatives)
  | .named _ body => strip body
  | .reference name => .reference name
  | .literal value => .literal value

/-- Several schemas, each of them stripped. -/
def stripAll : List Schema → List Schema
  | [] => []
  | s :: ss => strip s :: stripAll ss

/-- Fields with their schemas stripped. -/
def stripFields : List (Field Schema) → List (Field Schema)
  | [] => []
  | ⟨name, optional, s⟩ :: fields => ⟨name, optional, strip s⟩ :: stripFields fields

/-- A wildcard, stripped. -/
def stripWildcard : Option Schema → Option Schema
  | none => none
  | some s => some (strip s)

end

mutual

/-- The names of all named types of a schema with their bodies, those inside a
body before the body itself. -/
def namedTypes : Schema → List (String × Schema)
  | .list element => namedTypes element
  | .tuple elements => namedTypesAll elements
  | .object fields wildcard => namedTypesFields fields ++ namedTypesWildcard wildcard
  | .choice alternatives => namedTypesAll alternatives
  | .named name body => namedTypes body ++ [(name, body)]
  | _ => []

/-- The named types of several schemas. -/
def namedTypesAll : List Schema → List (String × Schema)
  | [] => []
  | s :: ss => namedTypes s ++ namedTypesAll ss

/-- The named types of the schemas of fields. -/
def namedTypesFields : List (Field Schema) → List (String × Schema)
  | [] => []
  | ⟨_, _, s⟩ :: fields => namedTypes s ++ namedTypesFields fields

/-- The named types of a wildcard. -/
def namedTypesWildcard : Option Schema → List (String × Schema)
  | none => []
  | some s => namedTypes s

end

/-- The names that the named types of a schema carry, one for each of them. -/
def names (s : Schema) : List String := s.namedTypes.map Prod.fst

/-- A name with a body, and the same name with the stripped body. -/
def binding : String × Schema → String × Schema
  | (name, body) => (name, body.strip)

/-- The names of a schema with their stripped bodies. -/
def table (s : Schema) : Table := s.namedTypes.map binding

@[simp] theorem keys_map_binding (bound : List (String × Schema)) :
    Entries.keys (bound.map binding) = bound.map Prod.fst := by
  simp [Entries.keys, Function.comp_def, binding]

@[simp] theorem keys_table (s : Schema) : s.table.keys = s.names := keys_map_binding _

/-! ## The companions as maps -/

theorem stripAll_eq_map (ss : List Schema) : stripAll ss = ss.map strip := by
  induction ss with
  | nil => rfl
  | cons s ss ih => simp [stripAll, ih]

theorem stripFields_eq_map (fs : List (Field Schema)) :
    stripFields fs = fs.map fun f => ⟨f.name, f.optional, f.schema.strip⟩ := by
  induction fs with
  | nil => rfl
  | cons f fs ih => simp [stripFields, ih]

theorem stripWildcard_eq_map (w : Option Schema) : stripWildcard w = w.map strip := by
  cases w <;> rfl

theorem namedTypesAll_eq_flatMap (ss : List Schema) :
    namedTypesAll ss = ss.flatMap namedTypes := by
  induction ss with
  | nil => rfl
  | cons s ss ih => simp [namedTypesAll, ih]

theorem namedTypesFields_eq_flatMap (fs : List (Field Schema)) :
    namedTypesFields fs = fs.flatMap fun f => f.schema.namedTypes := by
  induction fs with
  | nil => rfl
  | cons f fs ih => simp [namedTypesFields, ih]

theorem namedTypesWildcard_eq_flatMap (w : Option Schema) :
    namedTypesWildcard w = w.toList.flatMap namedTypes := by
  cases w <;> simp [namedTypesWildcard]

/-! ## Named types as parts -/

/-- What a schema adds to the named types of its children. -/
def ownName : Schema → List (String × Schema)
  | .named name body => [(name, body)]
  | _ => []

theorem namedTypes_eq (s : Schema) :
    s.namedTypes = s.children.flatMap namedTypes ++ s.ownName := by
  cases s <;>
    simp [namedTypes, children, ownName, namedTypesAll_eq_flatMap, namedTypesFields_eq_flatMap,
      namedTypesWildcard_eq_flatMap, List.flatMap_map]

theorem mem_ownName {n : String} {b s : Schema} : (n, b) ∈ s.ownName ↔ s = .named n b := by
  cases s with
  | named name body => simp [ownName, eq_comm]
  | _ => simp [ownName]

/-- The named types of a schema are its parts of the form `named`. -/
theorem mem_namedTypes_iff {n : String} {b s : Schema} :
    (n, b) ∈ s.namedTypes ↔ Part (.named n b) s := by
  induction s using children_ind with
  | step s ih =>
      rw [namedTypes_eq, List.mem_append, List.mem_flatMap, mem_ownName, Part.iff]
      constructor
      · rintro (⟨c, mem, h⟩ | rfl)
        · exact .inr ⟨c, mem, (ih c mem).1 h⟩
        · exact .inl rfl
      · rintro (h | ⟨c, mem, part⟩)
        · exact .inr h.symm
        · exact .inl ⟨c, mem, (ih c mem).2 part⟩

theorem mem_names_iff {n : String} {s : Schema} : n ∈ s.names ↔ ∃ b, Part (.named n b) s := by
  simp [names, mem_namedTypes_iff]

/-! ## Parts of a stripped schema -/

/-- Stripping commutes with taking the children, named types apart. -/
theorem children_strip {s : Schema} (h : s.ownName = []) :
    s.strip.children = s.children.map strip := by
  cases s with
  | object fields wildcard =>
      cases wildcard <;>
        simp [strip, children, stripFields_eq_map, stripWildcard, Function.comp_def]
  | named name body => simp [ownName] at h
  | _ => simp [strip, children, stripAll_eq_map]

/-- Stripping a part gives a part of the stripped schema. -/
theorem Part.strip {t s : Schema} (part : Part t s) : Part t.strip s.strip := by
  induction part with
  | self => exact .self
  | @child c s mem _ ih =>
      by_cases h : s.ownName = []
      · refine ih.trans (.of_mem ?_)
        rw [children_strip h]
        exact List.mem_map_of_mem mem
      · cases s with
        | named name body =>
            obtain rfl : c = body := by simpa [children] using mem
            exact ih
        | _ => exact absurd rfl h

/-- Every part of a stripped schema is a stripped part. -/
theorem Part.exists_of_strip {t s : Schema} (part : Part t s.strip) :
    ∃ u, Part u s ∧ u.strip = t := by
  induction s using children_ind with
  | step s ih =>
      cases s with
      | named name body =>
          obtain ⟨u, hu, rfl⟩ := ih body (by simp [children]) part
          exact ⟨u, .child (by simp [children]) hu, rfl⟩
      | _ =>
          rcases Part.iff.1 part with rfl | ⟨c, mem, hc⟩
          · exact ⟨_, .self, rfl⟩
          · rw [children_strip rfl] at mem
            obtain ⟨d, hd, rfl⟩ := List.mem_map.1 mem
            obtain ⟨u, hu, rfl⟩ := ih d hd hc
            exact ⟨u, .child hd hu, rfl⟩

/-- What strips to a reference is that reference under named types. -/
theorem part_of_strip_eq_reference {m : String} {s : Schema} (h : s.strip = .reference m) :
    Part (.reference m) s := by
  induction s with
  | named name body ih => exact .child (by simp [children]) (ih h)
  | reference name => exact h ▸ .self
  | primitive | list | tuple | object | choice | literal => simp [strip] at h

/-- Stripping keeps every reference. -/
theorem part_reference_strip {m : String} {s : Schema} :
    Part (.reference m) s.strip ↔ Part (.reference m) s := by
  constructor
  · intro part
    obtain ⟨u, hu, eq⟩ := part.exists_of_strip
    exact (part_of_strip_eq_reference eq).trans hu
  · exact Part.strip

/-- No named type is left after stripping. -/
theorem not_part_named_strip {n : String} {b s : Schema} : ¬ Part (.named n b) s.strip := by
  intro part
  obtain ⟨u, -, eq⟩ := part.exists_of_strip
  induction u with
  | named name body ih => exact ih eq
  | primitive | list | tuple | object | choice | reference | literal => simp [strip] at eq

/-- Stripping keeps the exposed names in their order. -/
@[simp] theorem unnested_strip (s : Schema) : s.strip.unnested = s.unnested := by
  induction s with
  | choice alternatives ih =>
      rw [strip, unnested, unnested]
      induction alternatives with
      | nil => rfl
      | cons s ss tail =>
          rw [stripAll, unnestedAll, unnestedAll, ih s (by simp),
            tail fun t ht => ih t (by simp [ht])]
  | named name body ih => rw [strip, ih, unnested]
  | primitive | list | tuple | object | reference | literal => rfl

theorem exposes_strip_iff {m : String} {s : Schema} : Exposes m s.strip ↔ Exposes m s := by
  rw [← mem_unnested_iff, ← mem_unnested_iff, unnested_strip]

/-! ## The table -/

/-- A name has a body in the table if a named type with the name strips to it. -/
theorem mem_table_iff {n : String} {t s : Schema} :
    (n, t) ∈ s.table ↔ ∃ b, Part (.named n b) s ∧ b.strip = t := by
  simp only [table, List.mem_map, Prod.exists, binding, Prod.mk.injEq, mem_namedTypes_iff]
  constructor
  · rintro ⟨_, b, part, rfl, rfl⟩
    exact ⟨b, part, rfl⟩
  · rintro ⟨b, part, rfl⟩
    exact ⟨n, b, part, rfl, rfl⟩

/-- Every body of the table is a part of the stripped schema. -/
theorem part_of_mem_table {n : String} {t s : Schema} (mem : (n, t) ∈ s.table) :
    Part t s.strip := by
  obtain ⟨b, part, rfl⟩ := mem_table_iff.1 mem
  exact Part.strip ((Part.of_mem (by simp [children])).trans part)

end Schema

/-! ## Keys of a stripped object -/

theorem find?_stripFields (fields : List (Field Schema)) (key : String) :
    Field.find? key (Schema.stripFields fields) =
      (Field.find? key fields).map fun f => ⟨f.name, f.optional, f.schema.strip⟩ := by
  induction fields with
  | nil => rfl
  | cons f fields ih =>
      rw [Schema.stripFields, Field.find?, Field.find?, ih]
      by_cases h : f.name = key <;> simp [h]

theorem forKey?_strip (fields : List (Field Schema)) (wildcard : Option Schema) (key : String) :
    Schema.forKey? (Schema.stripFields fields) (Schema.stripWildcard wildcard) key =
      (Schema.forKey? fields wildcard key).map Schema.strip := by
  rw [Schema.forKey?, Schema.forKey?, find?_stripFields, Schema.stripWildcard_eq_map]
  cases Field.find? key fields <;> rfl

end DataShape
