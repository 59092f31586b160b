import DataShape.Names.Resolved
import DataShape.Proofs.Names.Extraction
import DataShape.Proofs.Names.Resolution

/-!
# Accepted schemas

`resolve` accepts a schema exactly if its names make sense as they are written:
no two named types carry one name, every reference names a named type, and no
name reaches itself through choices and named types alone
(`accepted_iff_well_founded`).

What is checked is the stripped schema with its table.  Stripping keeps the
references and the exposed names, so nothing is lost on the way, and all bodies
are parts of the stripped schema, so nothing is gained.
-/

namespace DataShape

namespace Schema

/-- The body of a name exposes another name. -/
def Reaches (s : Schema) (n m : String) : Prop :=
  ∃ body, Part (.named n body) s ∧ Exposes m body

/-! ## The table of a schema without clashes -/

variable {s : Schema}

/-- A name has the stripped body of its only named type. -/
theorem find?_table_iff (distinct : s.names.Nodup) {n : String} {t : Schema} :
    Entries.find? n s.table = some t ↔ ∃ b, Part (.named n b) s ∧ b.strip = t := by
  rw [Entries.find?_eq_some_iff (by simpa using distinct), mem_table_iff]

/-- In the table a name leads where its named type reaches. -/
theorem leads_table_iff (distinct : s.names.Nodup) {n m : String} :
    s.table.Leads n m ↔ s.Reaches n m := by
  rw [Table.leads_iff, Reaches]
  constructor
  · rintro ⟨t, found, exposes⟩
    obtain ⟨b, part, rfl⟩ := (find?_table_iff distinct).1 found
    exact ⟨b, part, exposes_strip_iff.1 exposes⟩
  · rintro ⟨b, part, exposes⟩
    exact ⟨b.strip, (find?_table_iff distinct).2 ⟨b, part, rfl⟩, exposes_strip_iff.2 exposes⟩

/-- The bodies of the table have no references that the stripped schema lacks. -/
theorem resolves_of_mem_table (root : s.table.Resolves s.strip) :
    ∀ x ∈ s.table, s.table.Resolves x.2 :=
  fun _ mem name part => root name (part.trans (part_of_mem_table mem))

/-- If the names reach in no circle, a reference resolves exactly if it names a
named type. -/
theorem resolves_strip_iff (closed : s.table.Closed) (acyclic : s.table.checkCycles = .ok ()) :
    s.table.Resolves s.strip ↔ ∀ m, Part (.reference m) s → ∃ b, Part (.named m b) s := by
  constructor
  · intro root m part
    obtain ⟨t, found⟩ := root m (part_reference_strip.2 part)
    exact mem_names_iff.1 (by simpa using Table.mem_keys_of_resolve found)
  · intro defined m part
    obtain ⟨order, ordered, all⟩ := Table.exists_ordered closed acyclic
    have known : m ∈ s.table.keys := by
      simpa using mem_names_iff.2 (defined m (part_reference_strip.1 part))
    exact ordered.resolve_eq_ok (all known)

/-! ## Acceptance -/

/-- An accepted schema gives its table and its stripped root. -/
theorem resolve_eq_ok_iff {r : Resolved} :
    s.resolve.result = .ok r ↔ s.names.Nodup ∧ r.table = s.table ∧ r.root = s.strip := by
  obtain ⟨table, root, verified⟩ := r
  rw [Schema.resolve]
  rcases extractInto_nil_cases s with ⟨distinct, run⟩ | ⟨done, name, body, rest, split, -, mem, run⟩
  · simp only [run, distinct, true_and]
    split
    · simp [eq_comm]
    · next rejected =>
        constructor
        · intro h
          cases h
        · rintro ⟨rfl, rfl⟩
          rw [run, verified] at rejected
          cases rejected
  · have clash : ¬ s.names.Nodup := fun distinct => by
      have ok := extractInto_nil_ok_iff.2 ⟨distinct, rfl, rfl⟩
      rw [run] at ok
      cases ok
    simp [run, clash]

/-- A schema is accepted if no names clash and the check passes. -/
theorem exists_resolve_eq_ok_iff : (∃ r, s.resolve.result = .ok r) ↔
    s.names.Nodup ∧ s.table.verify s.strip = .ok () := by
  constructor
  · rintro ⟨r, accepted⟩
    obtain ⟨distinct, table, root⟩ := resolve_eq_ok_iff.1 accepted
    exact ⟨distinct, table ▸ root ▸ r.verified⟩
  · rintro ⟨distinct, verified⟩
    exact ⟨⟨s.table, s.strip, verified⟩, resolve_eq_ok_iff.2 ⟨distinct, rfl, rfl⟩⟩

/-- Exactly the schemas are accepted in which no two named types carry one name,
every reference names a named type, and no name reaches itself. -/
theorem accepted_iff_well_founded (s : Schema) : (∃ r, s.resolve.result = .ok r) ↔
    s.names.Nodup ∧ (∀ m, Part (.reference m) s → ∃ body, Part (.named m body) s) ∧
      ∀ n, ¬ Relation.TransGen s.Reaches n n := by
  rw [exists_resolve_eq_ok_iff, Table.verify_eq_ok_iff]
  refine and_congr_right fun distinct => ?_
  have same : s.table.Leads = s.Reaches := by
    funext n m
    exact propext (leads_table_iff distinct)
  constructor
  · rintro ⟨root, bodies, acyclic⟩
    have closed := Table.Closed.of_resolves bodies
    refine ⟨(resolves_strip_iff closed acyclic).1 root, ?_⟩
    rw [← same]
    exact (Table.checkCycles_eq_ok_iff closed).1 acyclic
  · rintro ⟨defined, acyclic⟩
    have closed : s.table.Closed := by
      intro n m leads
      obtain ⟨b, part, exposes⟩ := (leads_table_iff distinct).1 leads
      have inside : Part (.reference m) s :=
        exposes.part.trans ((Part.of_mem (by simp [children])).trans part)
      simpa using mem_names_iff.2 (defined m inside)
    have passed : s.table.checkCycles = .ok () := by
      rw [Table.checkCycles_eq_ok_iff closed, same]
      exact acyclic
    have root := (resolves_strip_iff closed passed).2 defined
    exact ⟨root, resolves_of_mem_table root, passed⟩

end Schema

end DataShape
