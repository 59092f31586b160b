import Mathlib.Data.List.Nodup
import DataShape.Names.Resolved
import DataShape.Walk.Basic
import DataShape.Proofs.Names.Resolution

/-!
# How far a walk goes without consuming anything

From a choice a check goes on to the alternatives, from a named type to its body,
and from a reference to the body of its name.  None of these steps consumes a
part of the value.  A schema is *within* a number of steps if every way of this
kind ends after that many.

In a table whose names are in order, a way never meets a name twice.  So it is no
longer than the schema and all bodies together (`within_of_ordered`), and for an
accepted schema one bound serves for all parts of the root and of the bodies
(`Resolved.grounded_root`, `Resolved.grounded_table`).

A limit *fits* a schema and a value if it leaves room for the way from the schema
and for a whole bound at each node of the value.  Every step of a walk leads to
something that a limit smaller by one fits.
-/

namespace DataShape

namespace Table

variable {table : Table}

/-! ## Ways without consumption -/

/-- The schemas that come next without consuming any part of a value. -/
def ahead (table : Table) : Schema → List Schema
  | .choice alternatives => alternatives
  | .named _ body => [body]
  | .reference name => (Entries.find? name table).toList
  | _ => []

/-- Every way from a schema that consumes nothing ends within a number of steps. -/
inductive Within (table : Table) : Nat → Schema → Prop
  | step {n : Nat} {s : Schema} : (∀ t ∈ table.ahead s, Within table n t) → Within table (n + 1) s

namespace Within

theorem mono {n m : Nat} {s : Schema} (h : table.Within n s) (le : n ≤ m) : table.Within m s := by
  induction h generalizing m with
  | step _ ih =>
      obtain ⟨m, rfl⟩ := Nat.exists_eq_add_one_of_ne_zero (Nat.ne_zero_of_lt le)
      exact .step fun t mem => ih t mem (by omega)

/-- One step of a way brings its end closer. -/
theorem of_mem_ahead {n : Nat} {s t : Schema} (h : table.Within n s) (mem : t ∈ table.ahead s) :
    ∃ m, n = m + 1 ∧ table.Within m t := by
  cases h with
  | step next => exact ⟨_, rfl, next t mem⟩

theorem pos {n : Nat} {s : Schema} (h : table.Within n s) : 0 < n := by
  cases h with
  | step _ => exact Nat.succ_pos _

/-- Following references stays on a way. -/
theorem of_follow {n limit : Nat} {s t : Schema} (h : table.Within n s)
    (found : table.follow limit s = .ok t) : table.Within n t := by
  refine follow_ind (fun name body lookup start => ?_) found h
  obtain ⟨m, rfl, next⟩ := start.of_mem_ahead (t := body) (by simp [ahead, lookup])
  exact next.mono (by omega)

end Within

/-! ## The length of a way -/

/-- A name with its body. -/
def entry (table : Table) (name : String) : String × Schema :=
  (name, (Entries.find? name table).getD (.tuple []))

/-- The number of nodes of the bodies of several names. -/
def weightOf (table : Table) (names : List String) : Nat :=
  (names.map fun name => (table.entry name).2.size).sum

/-- If the ways from all names end, then so do those from schemas that expose no
other names. -/
theorem within_of_exposed {names : List String} {n : Nat}
    (each : ∀ name ∈ names, table.Within (n + 1) (.reference name)) {s : Schema}
    (exposed : s.unnested ⊆ names) : table.Within (s.size + n) s := by
  induction s with
  | choice alternatives ih =>
      rw [Schema.size_eq, Nat.add_right_comm]
      refine .step fun t mem => ?_
      have inside : t.unnested ⊆ names := fun name h =>
        exposed (Schema.mem_unnestedAll.2 ⟨t, mem, h⟩)
      have smaller := Schema.size_lt_of_mem_children (s := .choice alternatives) mem
      rw [Schema.size_eq (.choice alternatives)] at smaller
      exact (ih t mem inside).mono (by omega)
  | named name body ih =>
      rw [Schema.size_eq, Nat.add_right_comm]
      refine .step fun t mem => ?_
      obtain rfl : t = body := by simpa [ahead] using mem
      exact (ih exposed).mono (by simp [Schema.children])
  | reference name =>
      rw [Schema.size_eq, Nat.add_right_comm]
      exact (each name (exposed (by simp [Schema.unnested]))).mono (by omega)
  | primitive | list | tuple | object | literal =>
      rw [Schema.size_eq, Nat.add_right_comm]
      exact .step fun t mem => by simp [ahead] at mem

/-- In an ordered list the way from a name meets each later name at most once. -/
theorem Ordered.within {order : List String} (h : table.Ordered order) {name : String}
    (mem : name ∈ order) : table.Within (table.weightOf order + 1) (.reference name) := by
  induction h generalizing name with
  | nil => cases mem
  | @cons first rest known _ back _ ih =>
      have rest_le : table.weightOf rest ≤ table.weightOf (first :: rest) := by
        simp [weightOf]
      rcases List.mem_cons.1 mem with rfl | mem
      · obtain ⟨body, found⟩ := exists_find?_of_mem_keys known
        refine .step fun t ht => ?_
        obtain rfl : t = body := by simpa [ahead, found] using ht
        have exposed : t.unnested ⊆ rest := fun next leads =>
          back next (leads_iff.2 ⟨_, found, Schema.mem_unnested_iff.1 leads⟩)
        refine (within_of_exposed (fun _ h => ih h) exposed).mono ?_
        simp [weightOf, entry, found]
      · exact (ih mem).mono (by omega)

/-- Distinct names have no more nodes in their bodies than the table has. -/
theorem weightOf_le_weight {names : List String} (distinct : names.Nodup)
    (known : names ⊆ table.keys) : table.weightOf names ≤ table.weight := by
  have entries : List.Subperm (names.map table.entry) table := by
    have injective : Function.Injective table.entry := fun _ _ eq => congrArg Prod.fst eq
    refine (List.Nodup.map injective distinct).subperm fun x mem => ?_
    obtain ⟨name, hn, rfl⟩ := List.mem_map.1 mem
    obtain ⟨body, found⟩ := exists_find?_of_mem_keys (known hn)
    simpa [entry, found] using Entries.mem_of_find? found
  obtain ⟨part, perm, sub⟩ := entries
  calc table.weightOf names = ((names.map table.entry).map fun x => x.2.size).sum := by
        simp [weightOf, Function.comp_def]
    _ = (part.map fun x => x.2.size).sum := (perm.map _).sum_eq.symm
    _ ≤ table.weight := (sub.map _).sum_le_sum fun _ _ => Nat.zero_le _

/-- In a table with an order of all names, every way from a schema that exposes
only names of the table is no longer than the schema and all bodies together. -/
theorem within_of_ordered {order : List String} (h : table.Ordered order)
    (all : table.keys ⊆ order) {s : Schema} (known : s.unnested ⊆ table.keys) :
    table.Within (s.size + table.weight) s :=
  (within_of_exposed (fun _ mem => h.within mem) (List.Subset.trans known all)).mono
    (Nat.add_le_add_left (weightOf_le_weight h.nodup h.subset_keys) _)

/-! ## Grounded schemas -/

/-- All references of a schema resolve, and the way from each of its parts ends
within a bound. -/
structure Grounded (table : Table) (bound : Nat) (s : Schema) : Prop where
  resolves : table.Resolves s
  within : ∀ t, Schema.Part t s → table.Within bound t

/-- All bodies of a table are grounded. -/
def AllGrounded (table : Table) (bound : Nat) : Prop := ∀ x ∈ table, table.Grounded bound x.2

variable {bound : Nat}

theorem Grounded.part {s t : Schema} (h : table.Grounded bound s) (part : Schema.Part t s) :
    table.Grounded bound t :=
  ⟨fun name inner => h.resolves name (inner.trans part),
    fun u inner => h.within u (inner.trans part)⟩

/-- A grounded schema resolves to a grounded schema. -/
theorem Grounded.resolve {s : Schema} (h : table.Grounded bound s)
    (bodies : table.AllGrounded bound) :
    ∃ t, table.resolve s = .ok t ∧ table.Grounded bound t := by
  have step : ∀ name body, Entries.find? name table = some body →
      table.Grounded bound (.reference name) → table.Grounded bound body :=
    fun name body found _ => bodies (name, body) (Entries.mem_of_find? found)
  cases s with
  | reference name =>
      obtain ⟨t, found⟩ := h.resolves name .self
      exact ⟨t, found, follow_ind step found h⟩
  | _ => exact ⟨_, follow_of_ne_reference _ (by simp), h⟩

end Table

namespace Resolved

/-- A bound on the ways from all parts of the root and of the bodies. -/
def bound (r : Resolved) : Nat := 2 * (r.root.size + r.table.weight)

/-- A schema no larger than the root and all bodies is grounded if its references
resolve. -/
theorem grounded_of_size_le (r : Resolved) {s : Schema} (resolves : r.table.Resolves s)
    (small : s.size ≤ r.root.size + r.table.weight) : r.table.Grounded r.bound s := by
  obtain ⟨-, bodies, acyclic⟩ := Table.verify_eq_ok_iff.1 r.verified
  obtain ⟨order, ordered, all⟩ := Table.exists_ordered (.of_resolves bodies) acyclic
  refine ⟨resolves, fun t part => ?_⟩
  have known : t.unnested ⊆ r.table.keys := by
    intro name exposed
    obtain ⟨u, found⟩ := resolves name ((Schema.mem_unnested_iff.1 exposed).part.trans part)
    exact Table.mem_keys_of_resolve found
  have smaller := part.size_le
  exact (Table.within_of_ordered ordered all known).mono (by rw [bound]; omega)

theorem grounded_root (r : Resolved) : r.table.Grounded r.bound r.root :=
  r.grounded_of_size_le (Table.verify_eq_ok_iff.1 r.verified).1 (Nat.le_add_right _ _)

theorem grounded_table (r : Resolved) : r.table.AllGrounded r.bound := by
  intro x mem
  have light : x.2.size ≤ r.table.weight :=
    List.le_sum_of_mem (List.mem_map_of_mem (f := fun x : String × Schema => x.2.size) mem)
  exact r.grounded_of_size_le ((Table.verify_eq_ok_iff.1 r.verified).2.1 x mem) (by omega)

end Resolved

/-! ## Limits that fit -/

namespace Table

variable {table : Table} {bound limit : Nat} {s : Schema} {v : Value}

/-- A limit leaves room for the way from a schema and for a bound at each node of
a value. -/
def Fits (table : Table) (bound limit : Nat) (s : Schema) (v : Value) : Prop :=
  table.Grounded bound s ∧ ∃ n, table.Within n s ∧ v.size * bound + n ≤ limit

namespace Fits

theorem mono {limit' : Nat} (h : table.Fits bound limit s v) (le : limit ≤ limit') :
    table.Fits bound limit' s v := by
  obtain ⟨grounded, n, within, room⟩ := h
  exact ⟨grounded, n, within, by omega⟩

theorem pos (h : table.Fits bound limit s v) : ∃ limit', limit = limit' + 1 := by
  obtain ⟨-, n, within, room⟩ := h
  exact Nat.exists_eq_add_one_of_ne_zero (by have := within.pos; omega)

theorem resolve (h : table.Fits bound limit s v) (bodies : table.AllGrounded bound) :
    ∃ t, table.resolve s = .ok t ∧ table.Fits bound limit t v := by
  obtain ⟨grounded, n, within, room⟩ := h
  obtain ⟨t, found, grounded'⟩ := grounded.resolve bodies
  exact ⟨t, found, grounded', n, within.of_follow found, room⟩

/-- An alternative of a choice and the body of a named type need less room. -/
theorem ahead {t : Schema} (h : table.Fits bound (limit + 1) s v) (mem : t ∈ s.children)
    (next : t ∈ table.ahead s) : table.Fits bound limit t v := by
  obtain ⟨grounded, n, within, room⟩ := h
  obtain ⟨m, rfl, within'⟩ := within.of_mem_ahead next
  exact ⟨grounded.part (.of_mem mem), m, within', by omega⟩

/-- A child needs less room for a smaller value. -/
theorem below {t : Schema} {w : Value} (h : table.Fits bound (limit + 1) s v)
    (mem : t ∈ s.children) (lt : w.size < v.size) : table.Fits bound limit t w := by
  obtain ⟨grounded, n, within, room⟩ := h
  refine ⟨grounded.part (.of_mem mem), bound, grounded.within t (.of_mem mem), ?_⟩
  have := Nat.mul_le_mul_right bound (Nat.succ_le_of_lt lt)
  have := within.pos
  rw [Nat.succ_mul] at *
  omega

end Fits

end Table

/-- The limit of a walk fits its root and its value. -/
theorem Resolved.fits_walkLimit (r : Resolved) (v : Value) :
    r.table.Fits r.bound (walkLimit r.table r.root v) r.root v := by
  refine ⟨r.grounded_root, r.bound, r.grounded_root.within _ .self, ?_⟩
  rw [walkLimit, Nat.succ_mul, bound]
  have := Nat.mul_le_mul_left v.size (Nat.le_add_right (2 * (r.root.size + r.table.weight)) 2)
  omega

end DataShape
