import Mathlib.Data.List.Perm.Subperm
import Mathlib.Logic.Relation
import DataShape.Names.Verify

/-!
# The order of names

A name *leads* to another one if its body exposes the other name.  A list of
names is *ordered* if every name of it leads only to names further back in the
list.  So nothing in an ordered list leads back to itself.

The search keeps the cleared names ordered.  Its trail is a way through distinct
names, each of which leads to the last one.  A name of the trail that comes up
again therefore leads back to itself, and a name whose search ends without that
can be put in front of the cleared names.  Since a trail has no more names than
the table, the depth of the search is never used up.

`checkCycles_eq_ok_iff` says that the check passes exactly if no name leads back
to itself, and `exists_ordered` that all names can then be put in order.
-/

namespace DataShape

namespace Table

/-! ## Ordered names -/

/-- The body of a name exposes another name. -/
def Leads (table : Table) (name next : String) : Prop := next ∈ table.reached name

/-- Every name that some name leads to has a body. -/
def Closed (table : Table) : Prop := ∀ name next, table.Leads name next → next ∈ table.keys

/-- Distinct names with bodies, each of which leads only to names further back. -/
inductive Ordered (table : Table) : List String → Prop
  | nil : Ordered table []
  | cons {name : String} {rest : List String} : name ∈ table.keys → name ∉ rest →
      (∀ next, table.Leads name next → next ∈ rest) → Ordered table rest →
      Ordered table (name :: rest)

namespace Ordered

variable {table : Table} {order : List String}

theorem nodup (h : table.Ordered order) : order.Nodup := by
  induction h with
  | nil => exact List.nodup_nil
  | cons _ fresh _ _ ih => exact List.nodup_cons.2 ⟨fresh, ih⟩

theorem subset_keys (h : table.Ordered order) : order ⊆ table.keys := by
  induction h with
  | nil => exact List.nil_subset _
  | cons known _ _ _ ih => exact List.cons_subset.2 ⟨known, ih⟩

/-- Whatever the names of an ordered list lead to is in the list. -/
theorem mem_of_leads (h : table.Ordered order) {name next : String} (mem : name ∈ order)
    (leads : table.Leads name next) : next ∈ order := by
  induction h with
  | nil => cases mem
  | cons _ _ back _ ih =>
      rcases List.mem_cons.1 mem with rfl | mem
      · exact .tail _ (back next leads)
      · exact .tail _ (ih mem)

theorem mem_of_transGen (h : table.Ordered order) {name next : String} (mem : name ∈ order)
    (leads : Relation.TransGen table.Leads name next) : next ∈ order := by
  induction leads with
  | single step => exact h.mem_of_leads mem step
  | tail _ step ih => exact h.mem_of_leads ih step

/-- No name of an ordered list leads back to itself. -/
theorem acyclic (h : table.Ordered order) {name : String} (mem : name ∈ order) :
    ¬ Relation.TransGen table.Leads name name := by
  induction h with
  | nil => cases mem
  | @cons first rest _ fresh back ordered ih =>
      rcases List.mem_cons.1 mem with rfl | mem
      · -- the way leaves the first name and cannot come back from the rest
        intro cycle
        obtain ⟨next, step, way⟩ := Relation.TransGen.head'_iff.1 cycle
        rcases Relation.reflTransGen_iff_eq_or_transGen.1 way with rfl | way
        · exact fresh (back _ step)
        · exact fresh (ordered.mem_of_transGen (back next step) way)
      · exact ih mem

end Ordered

/-! ## The trail of a search -/

/-- A way through distinct names to a last one. -/
structure Trail (table : Table) (before : List String) (name : String) : Prop where
  distinct : (before ++ [name]).Nodup
  known : before ++ [name] ⊆ table.keys
  leads : ∀ n ∈ before, Relation.TransGen table.Leads n name

namespace Trail

variable {table : Table} {before : List String} {name next : String}

/-- The trail of a single name. -/
theorem single (known : name ∈ table.keys) : table.Trail [] name :=
  ⟨by simp, by simpa using known, by simp⟩

/-- A trail goes on to a new name that its last name leads to. -/
theorem step (trail : table.Trail before name) (closed : table.Closed)
    (leads : table.Leads name next) (fresh : next ∉ before ++ [name]) :
    table.Trail (before ++ [name]) next where
  distinct := List.nodup_append.2 ⟨trail.distinct, by simp, by
    rintro n hn _ hm rfl
    exact fresh (List.mem_singleton.1 hm ▸ hn)⟩
  known := List.append_subset.2 ⟨trail.known, by simpa using closed name next leads⟩
  leads := by
    intro n hn
    rcases List.mem_append.1 hn with hn | hn
    · exact (trail.leads n hn).tail leads
    · obtain rfl := List.mem_singleton.1 hn
      exact .single leads

/-- A name of the trail that the last name leads to leads back to itself. -/
theorem cycle (trail : table.Trail before name) (leads : table.Leads name next)
    (again : next ∈ before ++ [name]) : Relation.TransGen table.Leads next next := by
  rcases List.mem_append.1 again with mem | mem
  · exact (trail.leads next mem).tail leads
  · obtain rfl := List.mem_singleton.1 mem
    exact .single leads

/-- A trail has no more names than the table. -/
theorem length_lt (trail : table.Trail before name) : before.length < table.length := by
  have h := (trail.distinct.subperm trail.known).length_le
  simpa [Entries.keys, Nat.succ_le_iff] using h

end Trail

/-! ## The search -/

/-- What a search ends with.  Either the cleared names are still in order, are
apart from the trail, and now have all the wanted names among them, or some name
leads back to itself. -/
def Outcome (table : Table) (before cleared wanted : List String) :
    Except Cycle (List String) → Prop
  | .ok cleared' => table.Ordered cleared' ∧ cleared ⊆ cleared' ∧
      (∀ n ∈ before, n ∉ cleared') ∧ wanted ⊆ cleared'
  | .error cycle => Relation.TransGen table.Leads cycle.back cycle.back

/-- Two searches in a row. -/
theorem Outcome.bind {table : Table} {before cleared front back : List String}
    {first : Except Cycle (List String)} {next : List String → Except Cycle (List String)}
    (outcome : table.Outcome before cleared front first)
    (rest : ∀ cleared', table.Ordered cleared' → (∀ n ∈ before, n ∉ cleared') →
      table.Outcome before cleared' back (next cleared')) :
    table.Outcome before cleared (front ++ back) (first >>= next) := by
  cases first with
  | error cycle => exact outcome
  | ok cleared₁ =>
      obtain ⟨ordered₁, keeps₁, apart₁, wanted₁⟩ := outcome
      have outcome₂ := rest cleared₁ ordered₁ apart₁
      change table.Outcome before cleared (front ++ back) (next cleared₁)
      cases result : next cleared₁ with
      | error cycle => rwa [result] at outcome₂
      | ok cleared₂ =>
          rw [result] at outcome₂
          obtain ⟨ordered₂, keeps₂, apart₂, wanted₂⟩ := outcome₂
          exact ⟨ordered₂, List.Subset.trans keeps₁ keeps₂, apart₂,
            List.append_subset.2 ⟨List.Subset.trans wanted₁ keeps₂, wanted₂⟩⟩

/-- If the search from every further name ends well, then so does the search from
all names that the last name of the trail leads to. -/
theorem foldlM_outcome {table : Table} {before : List String} {name : String}
    (trail : table.Trail before name) (closed : table.Closed)
    (search : List String → String → Except Cycle (List String))
    (each : ∀ cleared next, table.Trail (before ++ [name]) next → table.Ordered cleared →
      (∀ n ∈ before ++ [name], n ∉ cleared) →
      table.Outcome (before ++ [name]) cleared [next] (search cleared next))
    (nexts cleared : List String) (leads : ∀ next ∈ nexts, table.Leads name next)
    (ordered : table.Ordered cleared) (apart : ∀ n ∈ before ++ [name], n ∉ cleared) :
    table.Outcome (before ++ [name]) cleared nexts
      (nexts.foldlM (fun cleared next =>
        if next ∈ before ++ [name] then .error ⟨before ++ [name], next⟩
        else search cleared next) cleared) := by
  induction nexts generalizing cleared with
  | nil => exact ⟨ordered, List.Subset.refl _, apart, by simp⟩
  | cons next nexts ih =>
      rw [List.foldlM_cons]
      by_cases again : next ∈ before ++ [name]
      · rw [if_pos again]
        exact trail.cycle (leads next (by simp)) again
      · rw [if_neg again]
        have first := each cleared next (trail.step closed (leads next (by simp)) again) ordered
          apart
        exact first.bind fun cleared' => ih cleared' fun n hn => leads n (by simp [hn])

/-- Once all names that the last name of a trail leads to are cleared, it can be
cleared itself. -/
theorem Outcome.clear {table : Table} {before cleared : List String} {name : String}
    {below : Except Cycle (List String)} (trail : table.Trail before name)
    (outcome : table.Outcome (before ++ [name]) cleared (table.reached name) below) :
    table.Outcome before cleared [name] (below >>= fun cleared' => .ok (name :: cleared')) := by
  cases below with
  | error cycle => exact outcome
  | ok cleared' =>
      obtain ⟨ordered, keeps, apart, wanted⟩ := outcome
      have back : ∀ next, table.Leads name next → next ∈ cleared' := fun next leads => wanted leads
      refine ⟨.cons (trail.known (by simp)) (apart name (by simp)) back ordered,
        fun n hn => .tail _ (keeps hn), ?_, by simp⟩
      intro n hn again
      rcases List.mem_cons.1 again with rfl | again
      · exact (List.nodup_append.1 trail.distinct).2.2 n hn n (by simp) rfl
      · exact apart n (by simp [hn]) again

/-- A search along a trail that fits into the depth clears its last name. -/
theorem search_outcome {table : Table} (closed : table.Closed) (depth : Nat)
    {before : List String} {name : String} (trail : table.Trail before name)
    (enough : table.length ≤ before.length + depth) (cleared : List String)
    (ordered : table.Ordered cleared) (apart : ∀ n ∈ before, n ∉ cleared) :
    table.Outcome before cleared [name]
      (table.search depth (before ++ [name]) cleared name) := by
  induction depth generalizing before name cleared with
  | zero => exact absurd trail.length_lt (by omega)
  | succ depth ih =>
      rw [search]
      by_cases known : name ∈ cleared
      · rw [if_pos known]
        exact ⟨ordered, List.Subset.refl _, apart, by simpa using known⟩
      · rw [if_neg known]
        have apart' : ∀ n ∈ before ++ [name], n ∉ cleared := by
          intro n hn
          rcases List.mem_append.1 hn with hn | hn
          · exact apart n hn
          · exact List.mem_singleton.1 hn ▸ known
        have below := foldlM_outcome trail closed
          (fun cleared next => table.search depth (before ++ [name] ++ [next]) cleared next)
          (fun cleared next trail' => ih trail' (by simp; omega) cleared)
          (table.reached name) cleared (fun _ h => h) ordered apart'
        exact below.clear trail

/-- The search from several names with bodies clears all of them. -/
theorem searchFrom_outcome {table : Table} (closed : table.Closed) (names cleared : List String)
    (known : names ⊆ table.keys) (ordered : table.Ordered cleared) :
    table.Outcome [] cleared names (table.searchFrom cleared names) := by
  induction names generalizing cleared with
  | nil => exact ⟨ordered, List.Subset.refl _, by simp, by simp⟩
  | cons name names ih =>
      rw [searchFrom]
      have first := search_outcome closed table.length (.single (known List.mem_cons_self))
        (by simp) cleared ordered (by simp)
      exact first.bind fun cleared' ordered' _ =>
        ih cleared' (fun n hn => known (by simp [hn])) ordered'

/-! ## The check -/

theorem mem_insertName {name n : String} {names : List String} :
    n ∈ insertName name names ↔ n = name ∨ n ∈ names := by
  induction names with
  | nil => simp [insertName]
  | cons other rest ih =>
      by_cases below : other < name
      · simp only [insertName, if_pos below, List.mem_cons, ih]
        exact or_left_comm
      · simp only [insertName, if_neg below, List.mem_cons]

/-- Sorting keeps the names. -/
theorem mem_sortedNames {table : Table} {n : String} : n ∈ table.sortedNames ↔ n ∈ table.keys := by
  rw [sortedNames]
  induction table.keys with
  | nil => simp [sortNames]
  | cons name names ih => simp [sortNames, mem_insertName, ih]

/-- The search from all names of a table clears all of them. -/
theorem searchFrom_sortedNames {table : Table} (closed : table.Closed) :
    table.Outcome [] [] table.sortedNames (table.searchFrom [] table.sortedNames) :=
  searchFrom_outcome closed _ _ (fun _ h => mem_sortedNames.1 h) .nil

/-- A cycle that the check reports is one. -/
theorem transGen_of_checkCycles {table : Table} (closed : table.Closed) {cycle : Cycle}
    (found : table.checkCycles = .error cycle) :
    Relation.TransGen table.Leads cycle.back cycle.back := by
  have outcome := searchFrom_sortedNames closed
  rw [checkCycles] at found
  cases result : table.searchFrom [] table.sortedNames with
  | ok cleared => simp [result, Except.map] at found
  | error cycle' =>
      obtain rfl : cycle' = cycle := by simpa [result, Except.map] using found
      rwa [result] at outcome

/-- A table that passes the check has an order of all its names. -/
theorem exists_ordered {table : Table} (closed : table.Closed)
    (passed : table.checkCycles = .ok ()) :
    ∃ order, table.Ordered order ∧ table.keys ⊆ order := by
  have outcome := searchFrom_sortedNames closed
  rw [checkCycles] at passed
  cases result : table.searchFrom [] table.sortedNames with
  | error cycle => simp [result, Except.map] at passed
  | ok cleared =>
      rw [result] at outcome
      exact ⟨cleared, outcome.1, fun n hn => outcome.2.2.2 (mem_sortedNames.2 hn)⟩

/-- A name that leads somewhere has a body. -/
theorem Leads.mem_keys {table : Table} {name next : String} (leads : table.Leads name next) :
    name ∈ table.keys := by
  rw [← Entries.has_iff_mem_keys, Entries.has]
  rw [Leads, reached] at leads
  cases found : Entries.find? name table with
  | none => simp [found] at leads
  | some body => rfl

/-- The check passes exactly if no name leads back to itself. -/
theorem checkCycles_eq_ok_iff {table : Table} (closed : table.Closed) :
    table.checkCycles = .ok () ↔ ∀ name, ¬ Relation.TransGen table.Leads name name := by
  constructor
  · intro passed name cycle
    obtain ⟨order, ordered, all⟩ := exists_ordered closed passed
    obtain ⟨next, step, -⟩ := Relation.TransGen.head'_iff.1 cycle
    exact ordered.acyclic (all step.mem_keys) cycle
  · intro acyclic
    cases result : table.checkCycles with
    | ok _ => rfl
    | error cycle => exact absurd (transGen_of_checkCycles closed result) (acyclic cycle.back)

end Table

end DataShape
