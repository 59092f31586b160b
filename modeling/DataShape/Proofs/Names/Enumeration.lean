import Mathlib.Data.List.Sort
import Mathlib.Data.String.Basic
import DataShape.Proofs.Names.Acceptance

/-!
# The order of a table

A table may list its entries in any order, for names are looked up and not counted
off.  An `Enumeration` puts every table into some order, and `resolveIn` checks the
names of a schema with the table in that order.

Everything but the loop over the bodies only looks names up, or sorts them first
(`Alike`).  The loop over the bodies reports the first reference that does not
resolve, so its answer might depend on the order.  But it never gets to report
anything: all bodies are parts of the root, and the root has been checked before
(`verify_of_parts`).  So the order does not matter (`sameOutcome_resolveIn`).
-/

namespace DataShape

open Schema (Part)

/-! ## Sorted names -/

namespace Table

theorem insertName_eq_orderedInsert (name : String) (rest : List String) :
    insertName name rest = rest.orderedInsert (· ≤ ·) name := by
  induction rest with
  | nil => rfl
  | cons other rest ih =>
      rw [insertName, List.orderedInsert_cons, ih]
      by_cases below : other < name
      · rw [if_pos below, if_neg (not_le.2 below)]
      · rw [if_neg below, if_pos (not_lt.1 below)]

theorem sortNames_eq_insertionSort (names : List String) :
    sortNames names = names.insertionSort (· ≤ ·) := by
  induction names with
  | nil => rfl
  | cons name rest ih =>
      rw [sortNames, ih, insertName_eq_orderedInsert, List.insertionSort_cons]

/-- The order in which names come does not matter once they are sorted. -/
theorem sortNames_eq_of_perm {names names' : List String} (perm : names.Perm names') :
    sortNames names = sortNames names' := by
  rw [sortNames_eq_insertionSort, sortNames_eq_insertionSort]
  have same : (names.insertionSort (· ≤ ·)).Perm (names'.insertionSort (· ≤ ·)) :=
    (List.perm_insertionSort _ _).trans (perm.trans (List.perm_insertionSort _ _).symm)
  exact same.eq_of_sortedLE List.sortedLE_insertionSort List.sortedLE_insertionSort

/-! ## Tables with the same entries -/

/-- Two tables have the same entries, one for each name. -/
structure Alike (table table' : Table) : Prop where
  perm : table.Perm table'
  distinct : table.keys.Nodup

namespace Alike

variable {table table' : Table} {s : Schema}

theorem symm (h : table.Alike table') : table'.Alike table :=
  ⟨h.perm.symm, (h.perm.map Prod.fst).nodup_iff.1 h.distinct⟩

theorem trans {table'' : Table} (h : table.Alike table') (h' : table'.Alike table'') :
    table.Alike table'' :=
  ⟨h.perm.trans h'.perm, h.distinct⟩

/-- Every name has one body in both tables. -/
theorem find?_eq (h : table.Alike table') (name : String) :
    Entries.find? name table = Entries.find? name table' := by
  refine Option.ext fun body => ?_
  rw [Entries.find?_eq_some_iff h.distinct, Entries.find?_eq_some_iff h.symm.distinct]
  exact h.perm.mem_iff

theorem sortedNames_eq (h : table.Alike table') : table.sortedNames = table'.sortedNames :=
  sortNames_eq_of_perm (h.perm.map Prod.fst)

theorem follow_eq (h : table.Alike table') (limit : Nat) (s : Schema) :
    table.follow limit s = table'.follow limit s := by
  induction limit generalizing s with
  | zero => cases s <;> rfl
  | succ limit ih =>
      cases s with
      | reference name =>
          rw [follow_reference_succ, follow_reference_succ, h.find?_eq name]
          cases Entries.find? name table' with
          | none => rfl
          | some body => exact ih body
      | _ => rfl

theorem resolve_eq (h : table.Alike table') (s : Schema) : table.resolve s = table'.resolve s := by
  rw [resolve, resolve, h.follow_eq, h.perm.length_eq]

theorem checkAll_eq {ss : List Schema}
    (each : ∀ s ∈ ss, table.checkReferences s = table'.checkReferences s) :
    table.checkAll ss = table'.checkAll ss := by
  induction ss with
  | nil => rfl
  | cons s ss ih =>
      obtain ⟨head, rest⟩ := List.forall_mem_cons.1 each
      rw [checkAll, checkAll, head, ih rest]

theorem checkFields_eq {fs : List (Field Schema)}
    (each : ∀ f ∈ fs, table.checkReferences f.schema = table'.checkReferences f.schema) :
    table.checkFields fs = table'.checkFields fs := by
  induction fs with
  | nil => rfl
  | cons f fs ih =>
      obtain ⟨head, rest⟩ := List.forall_mem_cons.1 each
      rw [checkFields, checkFields, head, ih rest]

/-- The same reference is the first one that does not resolve. -/
theorem checkReferences_eq (h : table.Alike table') (s : Schema) :
    table.checkReferences s = table'.checkReferences s := by
  induction s with
  | primitive | literal => rfl
  | list element ih => exact ih
  | tuple elements ih => exact checkAll_eq ih
  | object fields wildcard fieldsIh wildcardIh =>
      rw [checkReferences, checkReferences, checkFields_eq fieldsIh]
      cases wildcard with
      | none => rfl
      | some s => rw [checkWildcard, checkWildcard, wildcardIh s rfl]
  | choice alternatives ih => exact checkAll_eq ih
  | named name body ih => exact ih
  | reference name => rw [checkReferences, checkReferences, h.resolve_eq]

theorem reached_eq (h : table.Alike table') (name : String) :
    table.reached name = table'.reached name := by
  rw [reached, reached, h.find?_eq]

theorem search_eq (h : table.Alike table') (depth : Nat) (trail cleared : List String)
    (name : String) :
    table.search depth trail cleared name = table'.search depth trail cleared name := by
  induction depth generalizing trail cleared name with
  | zero => rfl
  | succ depth ih => simp only [search, ih, h.reached_eq]

theorem searchFrom_eq (h : table.Alike table') (cleared names : List String) :
    table.searchFrom cleared names = table'.searchFrom cleared names := by
  induction names generalizing cleared with
  | nil => rfl
  | cons name rest ih => simp only [searchFrom, ih, h.search_eq, h.perm.length_eq]

/-- The same cycle is the first one that the search meets. -/
theorem checkCycles_eq (h : table.Alike table') : table.checkCycles = table'.checkCycles := by
  rw [checkCycles, checkCycles, h.sortedNames_eq, h.searchFrom_eq]

end Alike

/-! ## The bodies are checked with the root -/

variable {table table' : Table} {root : Schema}

/-- If all bodies are parts of a root whose references resolve, they pass in any order. -/
theorem checkBodies_of_parts (parts : ∀ x ∈ table, Part x.2 root)
    (passed : table.checkReferences root = .ok ()) : table.checkBodies table = .ok () := by
  rw [checkBodies_eq_ok_iff]
  intro x mem
  rw [checkReferences_eq_ok_iff] at passed ⊢
  exact fun name part => passed name (part.trans (parts x mem))

/-- If all bodies are parts of the root, then the check of the bodies changes nothing. -/
theorem verify_of_parts (parts : ∀ x ∈ table, Part x.2 root) :
    table.verify root = (do
      (table.checkReferences root).mapError .reference
      table.checkCycles.mapError .cycle) := by
  rw [verify]
  cases references : table.checkReferences root with
  | error e => rfl
  | ok _ =>
      rw [checkBodies_of_parts parts references]
      rfl

theorem Alike.verify_eq (h : table.Alike table') (parts : ∀ x ∈ table, Part x.2 root) :
    table.verify root = table'.verify root := by
  have parts' : ∀ x ∈ table', Part x.2 root := fun x mem => parts x (h.perm.mem_iff.2 mem)
  rw [verify_of_parts parts, verify_of_parts parts', h.checkReferences_eq, h.checkCycles_eq]

end Table

/-! ## Enumerations -/

/-- A way to list the entries of every table. -/
structure Enumeration where
  list : Table → Table
  perm : ∀ table, (list table).Perm table

namespace Enumeration

/-- First registered first. -/
def registered : Enumeration := ⟨id, .refl⟩

/-- Last registered first. -/
def reversed : Enumeration := ⟨List.reverse, List.reverse_perm⟩

end Enumeration

namespace Table

/-- The report of checking a table with its root, after some events. -/
def checked (registered : List Event) (table : Table) (root : Schema) : Report Resolved :=
  match verified : table.verify root with
  | .ok () => ⟨.ok ⟨table, root, verified⟩, registered⟩
  | .error r => ⟨.error (.definition r.error), registered ++ r.events⟩

end Table

namespace Schema

/-- Strip the names out of a schema and check them with the table in some order. -/
def resolveIn (order : Enumeration) (s : Schema) : Report Resolved :=
  match s.extractInto [] with
  | (extracted, table) =>
      let registered := table.keys.map Event.registered
      match extracted with
      | .error e => ⟨.error (.definition e), registered⟩
      | .ok root => (order.list table).checked registered root

/-- `resolve` takes names in the order in which they were registered. -/
theorem resolveIn_registered (s : Schema) : s.resolveIn .registered = s.resolve := rfl

end Schema

/-! ## The order does not matter -/

/-- Two resolved schemas have the same root, and in their tables the same entries. -/
structure Resolved.Alike (r r' : Resolved) : Prop where
  root : r.root = r'.root
  table : r.table.Alike r'.table

/-- Two reports tell the same events and end with the same fault, or with resolved
schemas that are alike. -/
inductive SameOutcome : Report Resolved → Report Resolved → Prop
  | accepted {r r' : Resolved} {events : List Event} :
      r.Alike r' → SameOutcome ⟨.ok r, events⟩ ⟨.ok r', events⟩
  | rejected {fault : Fault} {events : List Event} :
      SameOutcome ⟨.error fault, events⟩ ⟨.error fault, events⟩

theorem SameOutcome.result_eq_error {x y : Report Resolved} {fault : Fault}
    (h : SameOutcome x y) (failed : x.result = .error fault) : y.result = .error fault := by
  cases h with
  | accepted _ => cases failed
  | rejected => exact failed

/-- Tables with the same entries that pass or fail in the same way have the same outcome. -/
theorem Table.Alike.sameOutcome {table table' : Table} {root : Schema} (h : table.Alike table')
    (same : table.verify root = table'.verify root) (registered : List Event) :
    SameOutcome (table.checked registered root) (table'.checked registered root) := by
  rw [checked, checked]
  split
  · next verified =>
      split
      · exact .accepted ⟨rfl, h⟩
      · next rejected =>
          rw [← same, verified] at rejected
          cases rejected
  · next r rejected =>
      split
      · next verified =>
          rw [← same, rejected] at verified
          cases verified
      · next r' rejected' =>
          rw [same, rejected'] at rejected
          cases rejected
          exact .rejected

namespace Schema

/-- The outcome is the same with the table in any two orders. -/
theorem sameOutcome_resolveIn (s : Schema) (order order' : Enumeration) :
    SameOutcome (s.resolveIn order) (s.resolveIn order') := by
  rw [resolveIn, resolveIn]
  rcases extractInto_nil_cases s with ⟨distinct, run⟩ | ⟨done, name, body, rest, -, -, -, run⟩
  · have first : s.table.Alike (order.list s.table) :=
      ⟨(order.perm _).symm, by simpa using distinct⟩
    have second : s.table.Alike (order'.list s.table) :=
      ⟨(order'.perm _).symm, first.distinct⟩
    have alike := first.symm.trans second
    rw [run]
    refine alike.sameOutcome (alike.verify_eq fun x mem => ?_) _
    exact part_of_mem_table ((order.perm _).mem_iff.1 mem)
  · rw [run]
    exact .rejected

/-- The order of the table has no influence on the outcome, which is that of `resolve`.
In each order, all bodies are parts of the root and pass once the root has passed. -/
theorem order_has_no_influence (s : Schema) :
    s.resolveIn .registered = s.resolve ∧
      (∀ order order', SameOutcome (s.resolveIn order) (s.resolveIn order')) ∧
      ∀ root table, s.extractInto [] = (.ok root, table) → ∀ order : Enumeration,
        (∀ x ∈ order.list table, Part x.2 root) ∧
          ((order.list table).checkReferences root = .ok () →
            (order.list table).checkBodies (order.list table) = .ok ()) := by
  refine ⟨s.resolveIn_registered, s.sameOutcome_resolveIn, ?_⟩
  intro root table run order
  obtain ⟨-, rfl, rfl⟩ := extractInto_nil_ok_iff.1 run
  have parts : ∀ x ∈ order.list s.table, Part x.2 s.strip :=
    fun _ mem => part_of_mem_table ((order.perm _).mem_iff.1 mem)
  exact ⟨parts, Table.checkBodies_of_parts parts⟩

/-- Two names, each of which may stand for the other one. -/
def eachOther : Schema := .tuple
  [.named "b" (.choice [.reference "a", .primitive ⟨.int, false⟩]),
    .named "a" (.choice [.primitive ⟨.str, false⟩, .reference "b"])]

/-- The bodies pass and the cycle is found at the first name in ascending order, also if
the table has the last registered name first. -/
theorem eachOther_rejected : (eachOther.resolveIn .reversed).result =
      .error (.definition (.referenceCycle "a")) ∧
    Table.checkBodies eachOther.table.reverse eachOther.table.reverse = .ok () := by
  obtain ⟨-, same, bodies⟩ := order_has_no_influence eachOther
  have run : eachOther.extractInto [] = (.ok eachOther.strip, eachOther.table) := rfl
  obtain ⟨-, passed⟩ := bodies _ _ run .reversed
  exact ⟨(same .registered .reversed).result_eq_error rfl, passed rfl⟩

end Schema

end DataShape
