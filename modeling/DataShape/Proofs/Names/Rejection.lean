import Mathlib.Data.List.Duplicate
import DataShape.Proofs.Names.Chain
import DataShape.Proofs.Names.Enumeration
import DataShape.Proofs.Names.Stripping

/-!
# Why a schema is rejected

Three things can be wrong with the names of a schema, and they are looked for one after
the other.  A name may be carried twice, a reference may dangle, and a name may come back
to itself through choices.

`references` lists the references of a schema from left to right, and to check a schema is
to resolve the names of this list until one of them fails (`checkReferences_eq`).  So the
first reference that dangles is reported, with the name that its chain fails at.  What the
search for cycles reports comes back to itself by the invariant of its trail, and as
bodies have no named types in them any more, only choices lie in between
(`Schema.rejected_in_order`).
-/

namespace DataShape

open Relation (TransGen)

/-! ## The references of a schema -/

namespace Schema

mutual

/-- The names of all references in a schema, from left to right with the wildcard last. -/
def references : Schema → List String
  | .list element => references element
  | .tuple elements => referencesAll elements
  | .object fields wildcard => referencesFields fields ++ referencesWildcard wildcard
  | .choice alternatives => referencesAll alternatives
  | .named _ body => references body
  | .reference name => [name]
  | _ => []

/-- The references of several schemas. -/
def referencesAll : List Schema → List String
  | [] => []
  | s :: ss => references s ++ referencesAll ss

/-- The references of the schemas of fields. -/
def referencesFields : List (Field Schema) → List String
  | [] => []
  | ⟨_, _, s⟩ :: fields => references s ++ referencesFields fields

/-- The references of a wildcard. -/
def referencesWildcard : Option Schema → List String
  | none => []
  | some s => references s

end

/-- The schema is a reference to the name, or a choice among whose alternatives there is
one, at any depth of choices in choices. -/
inductive Offers (m : String) : Schema → Prop
  | reference : Offers m (.reference m)
  | choice {s : Schema} {alternatives : List Schema} :
      s ∈ alternatives → Offers m s → Offers m (.choice alternatives)

/-- Without named types, a schema exposes what it offers. -/
theorem Unnamed.offers {s : Schema} {m : String} (unnamed : s.Unnamed) (h : Exposes m s) :
    Offers m s := by
  induction h with
  | reference => exact .reference
  | choice mem _ ih => exact .choice mem (ih (unnamed.part (.of_mem mem)))
  | named => exact absurd rfl (unnamed.ne_named _ _)

end Schema

/-! ## One reference after the other -/

/-- What a check of several things reports, it reports of the first one that fails. -/
theorem exists_first_of_forM {α ε : Type} {f : α → Except ε PUnit} {as : List α} {e : ε}
    (failed : forM as f = .error e) : ∃ front a back, as = front ++ a :: back ∧
      (∀ b ∈ front, f b = .ok ()) ∧ f a = .error e := by
  induction as with
  | nil => cases failed
  | cons a as ih =>
      rw [List.forM_cons] at failed
      cases result : f a with
      | error e' =>
          rw [result] at failed
          cases failed
          exact ⟨[], a, as, rfl, by simp, result⟩
      | ok _ =>
          rw [result] at failed
          obtain ⟨front, b, back, rfl, passed, failed⟩ := ih failed
          exact ⟨a :: front, b, back, rfl, List.forall_mem_cons.2 ⟨result, passed⟩, failed⟩

theorem forM_eq_ok {α ε : Type} {f : α → Except ε PUnit} {as : List α}
    (passed : forM as f = .ok ()) : ∀ a ∈ as, f a = .ok () := by
  induction as with
  | nil => simp
  | cons a as ih =>
      rw [List.forM_cons] at passed
      cases result : f a with
      | error e =>
          rw [result] at passed
          cases passed
      | ok _ =>
          rw [result] at passed
          exact List.forall_mem_cons.2 ⟨result, ih passed⟩

namespace Table

variable {table : Table} {e : DefinitionError}

/-- The body of a name offers a reference to another name. -/
def Offers (table : Table) (name next : String) : Prop :=
  ∃ body, Entries.find? name table = some body ∧ Schema.Offers next body

/-- Check that a reference to a name resolves. -/
def checkName (table : Table) (name : String) : Except DefinitionError Unit :=
  (table.resolve (.reference name)).map fun _ => ()

theorem checkName_eq_error_iff {name : String} :
    table.checkName name = .error e ↔ table.resolve (.reference name) = .error e := by
  rw [checkName]
  cases table.resolve (.reference name) <;> simp [Except.map]

/-- A reference passes unless it dangles. -/
theorem checkName_eq_ok_iff {name : String} :
    table.checkName name = .ok () ↔ ¬ table.Dangles (.reference name) := by
  rw [dangles_iff, checkName]
  cases table.resolve (.reference name) <;> simp [Except.map]

theorem checkAll_eq_forM {ss : List Schema}
    (each : ∀ s ∈ ss, table.checkReferences s = forM s.references table.checkName) :
    table.checkAll ss = forM (Schema.referencesAll ss) table.checkName := by
  induction ss with
  | nil => rfl
  | cons s ss ih =>
      obtain ⟨head, rest⟩ := List.forall_mem_cons.1 each
      rw [checkAll, head, ih rest, Schema.referencesAll, List.forM_append]

theorem checkFields_eq_forM {fs : List (Field Schema)}
    (each : ∀ f ∈ fs, table.checkReferences f.schema = forM f.schema.references table.checkName) :
    table.checkFields fs = forM (Schema.referencesFields fs) table.checkName := by
  induction fs with
  | nil => rfl
  | cons f fs ih =>
      obtain ⟨head, rest⟩ := List.forall_mem_cons.1 each
      rw [checkFields, head, ih rest, Schema.referencesFields, List.forM_append]

/-- To check a schema is to check its references from left to right. -/
theorem checkReferences_eq (table : Table) (s : Schema) :
    table.checkReferences s = forM s.references table.checkName := by
  induction s with
  | primitive | literal => rfl
  | list element ih => exact ih
  | tuple elements ih => exact checkAll_eq_forM ih
  | object fields wildcard fieldsIh wildcardIh =>
      rw [checkReferences, checkFields_eq_forM fieldsIh, Schema.references, List.forM_append]
      cases wildcard with
      | none => rfl
      | some s => rw [checkWildcard, wildcardIh s rfl, Schema.referencesWildcard]
  | choice alternatives ih => exact checkAll_eq_forM ih
  | named name body ih => exact ih
  | reference name =>
      rw [Schema.references, List.forM_cons, checkReferences]
      show table.checkName name = _
      cases table.checkName name <;> rfl

/-- A check that fails reports the first reference that dangles, with the name that its
chain fails at. -/
theorem exists_first_of_checkReferences {s : Schema} (failed : table.checkReferences s = .error e) :
    ∃ front n back, s.references = front ++ n :: back ∧
      (∀ m ∈ front, ¬ table.Dangles (.reference m)) ∧ table.Fails (.reference n) e := by
  rw [checkReferences_eq] at failed
  obtain ⟨front, n, back, split, passed, failed⟩ := exists_first_of_forM failed
  refine ⟨front, n, back, split, fun m mem => checkName_eq_ok_iff.1 (passed m mem), ?_⟩
  exact fails_of_resolve (checkName_eq_error_iff.1 failed)

theorem not_dangles_of_checkReferences {s : Schema} (passed : table.checkReferences s = .ok ()) :
    ∀ n ∈ s.references, ¬ table.Dangles (.reference n) := by
  rw [checkReferences_eq] at passed
  exact fun n mem => checkName_eq_ok_iff.1 (forM_eq_ok passed n mem)

end Table

/-! ## Rejected schemas -/

namespace Schema

variable {s : Schema} {fault : Fault}

theorem duplicate_of_mem {name : String} {front back : List String} (again : name ∈ front) :
    List.Duplicate name (front ++ name :: back) := by
  rw [List.duplicate_iff_sublist]
  exact (List.singleton_sublist.2 again).append (List.singleton_sublist.2 List.mem_cons_self)

/-- In the table of a schema, what leads to a name offers it. -/
theorem offers_of_leads {n m : String} (leads : s.table.Leads n m) : s.table.Offers n m := by
  obtain ⟨body, found, exposes⟩ := Table.leads_iff.1 leads
  exact ⟨body, found, (unnamed_of_mem_table (Entries.mem_of_find? found)).offers exposes⟩

/-- If no names clash, the fault is that of the check of the root and then of the cycles. -/
theorem exists_rejection (distinct : s.names.Nodup) (rejected : s.resolve.result = .error fault) :
    (∃ e, fault = .definition e ∧ s.table.checkReferences s.strip = .error e) ∨
      ∃ c, fault = .definition (.referenceCycle c.back) ∧
        s.table.checkReferences s.strip = .ok () ∧ s.table.checkCycles = .error c := by
  have run := extractInto_nil_ok_iff.2 ⟨distinct, rfl, rfl⟩
  have checked : ∃ r, fault = .definition r.error ∧ s.table.verify s.strip = .error r := by
    rw [resolve] at rejected
    simp only [run] at rejected
    split at rejected
    · cases rejected
    · next r failed =>
        cases rejected
        exact ⟨r, rfl, by rwa [run] at failed⟩
  obtain ⟨r, rfl, failed⟩ := checked
  rw [Table.verify_of_parts fun _ mem => part_of_mem_table mem] at failed
  cases references : s.table.checkReferences s.strip with
  | error e =>
      rw [references] at failed
      cases failed
      exact .inl ⟨e, rfl, rfl⟩
  | ok _ =>
      rw [references] at failed
      cases cycles : s.table.checkCycles with
      | error c =>
          rw [cycles] at failed
          cases failed
          exact .inr ⟨c, rfl, rfl, rfl⟩
      | ok _ =>
          rw [cycles] at failed
          cases failed

/-- If all references of the root resolve, then names only lead to names with bodies. -/
theorem closed_of_checkReferences (passed : s.table.checkReferences s.strip = .ok ()) :
    s.table.Closed :=
  .of_resolves (resolves_of_mem_table (Table.checkReferences_eq_ok_iff.1 passed))

/-- A rejected schema is rejected for a clash of names, if there is one, else for the first
reference that dangles, if there is one, and else for a name that offers itself in the
end. -/
theorem rejected_in_order (rejected : s.resolve.result = .error fault) :
    ∃ e, fault = .definition e ∧
      (¬ s.names.Nodup → ∃ name, e = .duplicateName name ∧ List.Duplicate name s.names) ∧
      (s.names.Nodup → s.extractNamed = .ok (s.table, s.strip) ∧
        ((∃ n ∈ s.strip.references, s.table.Dangles (.reference n)) →
          ∃ front n back, s.strip.references = front ++ n :: back ∧
            (∀ m ∈ front, ¬ s.table.Dangles (.reference m)) ∧
            s.table.Dangles (.reference n) ∧ s.table.Fails (.reference n) e) ∧
        ((∀ n ∈ s.strip.references, ¬ s.table.Dangles (.reference n)) →
          ∃ n, e = .referenceCycle n ∧ TransGen s.table.Offers n n)) := by
  rcases extractInto_nil_cases s with
    ⟨distinct, run⟩ | ⟨done, name, body, rest, split, -, again, run⟩
  · have extracted := extractNamed_eq_ok_iff.2 ⟨distinct, rfl, rfl⟩
    rcases exists_rejection distinct rejected with ⟨e, rfl, failed⟩ | ⟨c, rfl, passed, failed⟩
    · obtain ⟨front, n, back, first, before, fails⟩ := Table.exists_first_of_checkReferences failed
      refine ⟨e, rfl, fun clash => absurd distinct clash, fun _ => ⟨extracted, fun _ => ?_, ?_⟩⟩
      · exact ⟨front, n, back, first, before, fails.dangles, fails⟩
      · exact fun none => absurd fails.dangles (none n (by simp [first]))
    · have none := Table.not_dangles_of_checkReferences passed
      refine ⟨_, rfl, fun clash => absurd distinct clash, fun _ => ⟨extracted, ?_, fun _ => ?_⟩⟩
      · rintro ⟨n, mem, dangles⟩
        exact absurd dangles (none n mem)
      · have cycle := Table.transGen_of_checkCycles (closed_of_checkReferences passed) failed
        exact ⟨c.back, rfl, TransGen.mono (fun _ _ => offers_of_leads) _ _ cycle⟩
  · have names := names_of_table_eq split
    rw [resolve, run] at rejected
    cases rejected
    refine ⟨_, rfl, fun _ => ⟨name, rfl, names ▸ duplicate_of_mem again⟩, fun distinct => ?_⟩
    exact absurd (names ▸ distinct) (not_nodup_of_mem again)

/-- A reference that leads into a cycle of two names, in front of one that has no body. -/
def ringed : Schema := .tuple
  [.reference "in", .named "in" (.reference "a"), .named "a" (.reference "b"),
    .named "b" (.reference "a"), .reference "lost"]

/-- The reference in front is reported with a name of the cycle, and not with its own. -/
theorem ringed_rejected :
    ringed.resolve.result = .error (.definition (.referenceCycle "b")) ∧
    ∃ front n back, ringed.strip.references = front ++ n :: back ∧
      (∀ m ∈ front, ¬ ringed.table.Dangles (.reference m)) ∧
      ringed.table.Dangles (.reference n) ∧
      ringed.table.Fails (.reference n) (.referenceCycle "b") := by
  have rejected : ringed.resolve.result = .error (.definition (.referenceCycle "b")) := rfl
  obtain ⟨e, same, -, order⟩ := rejected_in_order rejected
  cases same
  obtain ⟨-, first, -⟩ := order (by decide)
  exact ⟨rejected, first ⟨"lost", by decide, Table.dangles_iff.2 ⟨_, rfl⟩⟩⟩

end Schema

end DataShape
