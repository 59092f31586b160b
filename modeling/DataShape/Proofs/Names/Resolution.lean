import DataShape.Proofs.Names.Order
import DataShape.Proofs.Schema.Part

/-!
# Following references

`follow` goes from a reference to the body of its name until something else is
found.  What holds of a schema and passes from a name to its body holds of the
schema that is found (`follow_ind`), and what is found is no reference.

In an ordered list of names every way through references ends, after no more
names than the list has (`Ordered.follow_eq_ok`).  A way through references that
ends starts at a name with a body.

`checkReferences` is about every reference that stands anywhere in a schema, and
`verify_eq_ok_iff` sums up what a checked table and root are.
-/

namespace DataShape

namespace Table

variable {table : Table}

/-! ## What is found -/

@[simp] theorem follow_reference_succ (limit : Nat) (name : String) :
    table.follow (limit + 1) (.reference name) = match Entries.find? name table with
      | none => .error (.unresolvedReference name)
      | some body => table.follow limit body := rfl

/-- Whatever is no reference is found at once. -/
theorem follow_of_ne_reference (limit : Nat) {s : Schema} (h : ∀ name, s ≠ .reference name) :
    table.follow limit s = .ok s := by
  cases limit <;> cases s with
  | reference name => exact absurd rfl (h name)
  | _ => rfl

/-- What holds of a schema, and of a body whenever it holds of a reference to the
body, holds of what is found. -/
theorem follow_ind {motive : Schema → Prop}
    (step : ∀ name body, Entries.find? name table = some body → motive (.reference name) →
      motive body)
    {limit : Nat} {s t : Schema} (found : table.follow limit s = .ok t) (start : motive s) :
    motive t := by
  induction limit generalizing s with
  | zero =>
      cases s with
      | reference name => simp [follow] at found
      | _ => cases found; exact start
  | succ limit ih =>
      cases s with
      | reference name =>
          rw [follow_reference_succ] at found
          cases h : Entries.find? name table with
          | none => simp [h] at found
          | some body => exact ih (by simpa [h] using found) (step name body h start)
      | _ => cases found; exact start

/-- What is found is no reference. -/
theorem ne_reference_of_follow {limit : Nat} {s t : Schema}
    (found : table.follow limit s = .ok t) (name : String) : t ≠ .reference name := by
  induction limit generalizing s with
  | zero =>
      cases s with
      | reference m => simp [follow] at found
      | _ => cases found; simp
  | succ limit ih =>
      cases s with
      | reference m =>
          rw [follow_reference_succ] at found
          cases h : Entries.find? m table with
          | none => simp [h] at found
          | some body => exact ih (by simpa [h] using found)
      | _ => cases found; simp

/-- What is found within some limit is found within every larger one. -/
theorem follow_mono {limit limit' : Nat} (le : limit ≤ limit') {s t : Schema}
    (found : table.follow limit s = .ok t) : table.follow limit' s = .ok t := by
  induction limit generalizing limit' s with
  | zero =>
      cases s with
      | reference name => simp [follow] at found
      | _ => cases found; exact follow_of_ne_reference limit' (by simp)
  | succ limit ih =>
      obtain ⟨limit', rfl⟩ := Nat.exists_eq_add_one_of_ne_zero (Nat.ne_zero_of_lt le)
      cases s with
      | reference name =>
          rw [follow_reference_succ] at found ⊢
          cases h : Entries.find? name table with
          | none => simp [h] at found
          | some body => exact ih (by omega) (by simpa [h] using found)
      | _ => cases found; exact follow_of_ne_reference _ (by simp)

/-- A reference that resolves names a body. -/
theorem mem_keys_of_resolve {name : String} {t : Schema}
    (found : table.resolve (.reference name) = .ok t) : name ∈ table.keys := by
  rw [← Entries.has_iff_mem_keys, Entries.has]
  rw [resolve, follow_reference_succ] at found
  cases h : Entries.find? name table with
  | none => simp [h] at found
  | some body => rfl

theorem exists_find?_of_mem_keys {name : String} (known : name ∈ table.keys) :
    ∃ body, Entries.find? name table = some body :=
  Option.isSome_iff_exists.1 ((Entries.has_iff_mem_keys name table).2 known)

/-- A name leads to the names that its body exposes. -/
theorem leads_iff {name next : String} : table.Leads name next ↔
    ∃ body, Entries.find? name table = some body ∧ Schema.Exposes next body := by
  rw [Leads, reached]
  cases Entries.find? name table with
  | none => simp
  | some body => simp [Schema.mem_unnested_iff]

/-- In an ordered list, the way from a name through references ends. -/
theorem Ordered.follow_eq_ok {order : List String} (h : table.Ordered order) {name : String}
    (mem : name ∈ order) : ∃ t, table.follow order.length (.reference name) = .ok t := by
  induction h generalizing name with
  | nil => cases mem
  | @cons first rest known _ back _ ih =>
      rcases List.mem_cons.1 mem with rfl | mem
      · obtain ⟨body, found⟩ := exists_find?_of_mem_keys known
        rw [List.length_cons, follow_reference_succ, found]
        cases body with
        | reference next =>
            exact ih (back next (leads_iff.2 ⟨_, found, .reference⟩))
        | _ => exact ⟨_, follow_of_ne_reference _ (by simp)⟩
      · obtain ⟨t, found⟩ := ih mem
        exact ⟨t, follow_mono (by simp) found⟩

/-- If all names are in order, then every reference to one of them resolves. -/
theorem Ordered.resolve_eq_ok {order : List String} (h : table.Ordered order)
    {name : String} (mem : name ∈ order) : ∃ t, table.resolve (.reference name) = .ok t := by
  have fits : order.length ≤ table.length := by
    simpa [Entries.keys] using (h.nodup.subperm h.subset_keys).length_le
  obtain ⟨t, found⟩ := h.follow_eq_ok mem
  exact ⟨t, follow_mono (by omega) found⟩

/-! ## Checking references -/

theorem checkAll_eq_ok_iff {ss : List Schema} :
    table.checkAll ss = .ok () ↔ ∀ s ∈ ss, table.checkReferences s = .ok () := by
  induction ss with
  | nil => simp [checkAll]
  | cons s ss ih =>
      rw [List.forall_mem_cons, ← ih, checkAll]
      cases table.checkReferences s <;> simp [bind, Except.bind]

theorem checkFields_eq_ok_iff {fs : List (Field Schema)} :
    table.checkFields fs = .ok () ↔ ∀ f ∈ fs, table.checkReferences f.schema = .ok () := by
  induction fs with
  | nil => simp [checkFields]
  | cons f fs ih =>
      rw [List.forall_mem_cons, ← ih, checkFields]
      cases table.checkReferences f.schema <;> simp [bind, Except.bind]

theorem checkBodies_eq_ok_iff {entries : List (String × Schema)} :
    table.checkBodies entries = .ok () ↔
      ∀ x ∈ entries, table.checkReferences x.2 = .ok () := by
  induction entries with
  | nil => simp [checkBodies]
  | cons x entries ih =>
      rw [List.forall_mem_cons, ← ih, checkBodies]
      cases table.checkReferences x.2 <;> simp [bind, Except.bind]

/-- A schema passes if its children do and, for a reference, if it resolves. -/
theorem checkReferences_eq_ok_iff_children {s : Schema} :
    table.checkReferences s = .ok () ↔ (∀ c ∈ s.children, table.checkReferences c = .ok ()) ∧
      ∀ name, s = .reference name → ∃ t, table.resolve (.reference name) = .ok t := by
  cases s with
  | object fields wildcard =>
      rw [checkReferences, Schema.children, List.forall_mem_append, List.forall_mem_map,
        ← checkFields_eq_ok_iff]
      cases wildcard <;> cases table.checkFields fields <;>
        simp [checkWildcard, bind, Except.bind]
  | reference name =>
      rw [checkReferences]
      cases h : table.resolve (.reference name) <;> simp [Schema.children, Except.map, h]
  | _ => simp [checkReferences, Schema.children, checkAll_eq_ok_iff]

/-- A schema passes exactly if every reference anywhere in it resolves. -/
theorem checkReferences_eq_ok_iff {s : Schema} : table.checkReferences s = .ok () ↔
    ∀ name, Schema.Part (.reference name) s → ∃ t, table.resolve (.reference name) = .ok t := by
  induction s using Schema.children_ind with
  | step s ih =>
      rw [checkReferences_eq_ok_iff_children]
      constructor
      · rintro ⟨below, own⟩ name part
        rcases Schema.Part.iff.1 part with rfl | ⟨c, mem, part⟩
        · exact own name rfl
        · exact (ih c mem).1 (below c mem) name part
      · intro all
        exact ⟨fun c mem => (ih c mem).2 fun name part => all name (.child mem part),
          fun name eq => all name (eq ▸ .self)⟩

/-! ## Both checks -/

/-- Every reference anywhere in a schema resolves. -/
def Resolves (table : Table) (s : Schema) : Prop :=
  ∀ name, Schema.Part (.reference name) s → ∃ t, table.resolve (.reference name) = .ok t

/-- A root and a table pass if all references of the root and of the bodies
resolve and no name leads back to itself. -/
theorem verify_eq_ok_iff {root : Schema} : table.verify root = .ok () ↔
    table.Resolves root ∧ (∀ x ∈ table, table.Resolves x.2) ∧ table.checkCycles = .ok () := by
  simp only [Resolves, ← checkReferences_eq_ok_iff, ← checkBodies_eq_ok_iff, verify]
  cases table.checkReferences root with
  | error e =>
      show (Except.error (.reference e) : Except Rejection Unit) = .ok () ↔ _
      simp
  | ok _ =>
      cases table.checkBodies table with
      | error e =>
          show (Except.error (.reference e) : Except Rejection Unit) = .ok () ↔ _
          simp
      | ok _ =>
          cases table.checkCycles with
          | error cycle =>
              show (Except.error (.cycle cycle) : Except Rejection Unit) = .ok () ↔ _
              simp
          | ok _ =>
              show (Except.ok () : Except Rejection Unit) = .ok () ↔ _
              simp

/-- If all references of the bodies resolve, names only lead to names with bodies. -/
theorem Closed.of_resolves (bodies : ∀ x ∈ table, table.Resolves x.2) : table.Closed := by
  intro name next leads
  obtain ⟨body, found, exposes⟩ := leads_iff.1 leads
  obtain ⟨t, resolved⟩ := bodies (name, body) (Entries.mem_of_find? found) next exposes.part
  exact mem_keys_of_resolve resolved

end Table

end DataShape
