import DataShape.Proofs.Names.Chain

/-!
# Chains without an end

A chain of references *ends* at a schema that is no reference or at a name without a body.
If it does not end, then each name on it points to another one, and the names can be listed
forever (`exists_endless`).

`resolve` gives up after one name more than the table has.  So of a chain that never ends it
reports the name at exactly this position, and a chain that ends is never taken for one that
does not, however long it is (`resolve_tells_chains_apart`).
-/

namespace DataShape

open Relation (ReflTransGen TransGen)

namespace Table

/-- The references from a schema lead to something other than a reference, or to a name
without a body. -/
def Ends (table : Table) (s : Schema) : Prop :=
  (∃ t, table.Follows s t ∧ ∀ name, t ≠ .reference name) ∨
    ∃ m, table.Follows s (.reference m) ∧ m ∉ table.keys

/-- Each name points to the next one, without end. -/
def Endless (table : Table) (chain : Nat → String) : Prop :=
  ∀ i, table.Points (chain i) (chain (i + 1))

variable {table : Table} {s t : Schema} {m n : String} {chain : Nat → String}

/-! ## Names on the way into a cycle -/

/-- From one reference to another the names on the way point to each other. -/
theorem Follows.reflTransGen (h : table.Follows s t) (first : s = .reference n)
    (last : t = .reference m) : ReflTransGen table.Points n m := by
  induction h generalizing n with
  | here =>
      obtain rfl : n = m := Schema.reference.inj (first.symm.trans last)
      exact .refl
  | @body name body t found rest ih =>
      obtain rfl := Schema.reference.inj first
      by_cases reference : ∃ next, body = .reference next
      · obtain ⟨next, rfl⟩ := reference
        exact .head found (ih rfl last)
      · have ended : t = body := rest.eq_of_ne_reference fun next eq => reference ⟨next, eq⟩
        exact absurd ⟨m, ended.symm.trans last⟩ reference

/-- Every name of a chain that leads into a cycle points to another one. -/
theorem exists_points_of_cycle (way : table.Follows s (.reference m))
    (cycle : TransGen table.Points m m) (passes : table.Follows s (.reference n)) :
    ∃ next, table.Points n next := by
  have leads : ∃ k, TransGen table.Points n k := by
    rcases way.total passes with behind | before
    · exact ⟨n, Points.cycle cycle (behind.reflTransGen rfl rfl)⟩
    · exact ⟨m, TransGen.trans_right (before.reflTransGen rfl rfl) cycle⟩
  obtain ⟨k, leads⟩ := leads
  obtain ⟨next, points, -⟩ := TransGen.head'_iff.1 leads
  exact ⟨next, points⟩

/-! ## Endless chains -/

/-- A chain that leads into a cycle never ends. -/
theorem exists_endless (way : table.Follows s (.reference m))
    (cycle : TransGen table.Points m m) :
    ∃ chain, s = .reference (chain 0) ∧ table.Endless chain := by
  obtain ⟨n, rfl⟩ : ∃ n, s = .reference n := by
    cases way with
    | here => exact ⟨m, rfl⟩
    | body => exact ⟨_, rfl⟩
  have ahead : ∀ k, table.Follows (.reference n) (.reference k) → ∃ next, table.Points k next :=
    fun k passes => exists_points_of_cycle way cycle passes
  choose! next points using ahead
  have passes : ∀ i, table.Follows (.reference n) (.reference (next^[i] n)) := by
    intro i
    induction i with
    | zero => exact .here
    | succ i ih =>
        rw [Function.iterate_succ_apply']
        exact ih.trans (.body (points _ ih) .here)
  refine ⟨fun i => next^[i] n, rfl, fun i => ?_⟩
  show table.Points (next^[i] n) (next^[i + 1] n)
  rw [Function.iterate_succ_apply']
  exact points _ (passes i)

/-- Behind its first name, an endless chain is endless. -/
theorem Endless.tail (endless : table.Endless chain) : table.Endless fun i => chain (i + 1) :=
  fun i => endless (i + 1)

/-- Along an endless chain, the name is reported at which the limit is used up. -/
theorem Endless.follow_eq (endless : table.Endless chain) (limit : Nat) :
    table.follow limit (.reference (chain 0)) = .error (.referenceCycle (chain limit)) := by
  induction limit generalizing chain with
  | zero => rfl
  | succ limit ih =>
      have first : Entries.find? (chain 0) table = some (.reference (chain 1)) := endless 0
      rw [follow_reference_succ, first]
      exact ih endless.tail

/-- Everything on an endless chain is a name that points to another one. -/
theorem Endless.exists_points (endless : table.Endless chain)
    (h : table.Follows (.reference (chain 0)) t) :
    ∃ n next, t = .reference n ∧ table.Points n next := by
  generalize start : Schema.reference (chain 0) = s at h
  induction h generalizing chain with
  | here => exact ⟨chain 0, chain 1, start.symm, endless 0⟩
  | body found _ ih =>
      obtain rfl := Schema.reference.inj start
      obtain rfl := Option.some.inj (found.symm.trans (endless 0))
      exact ih endless.tail rfl

theorem Endless.not_ends (endless : table.Endless chain) :
    ¬ table.Ends (.reference (chain 0)) := by
  rintro (⟨t, follows, other⟩ | ⟨m, follows, unknown⟩)
  · obtain ⟨n, -, rfl, -⟩ := endless.exists_points follows
    exact other n rfl
  · obtain ⟨n, next, same, points⟩ := endless.exists_points follows
    obtain rfl := Schema.reference.inj same
    exact unknown (mem_keys_of_find? points)

/-! ## What is reported -/

/-- Behind a name without a body the chain does not go on. -/
theorem Follows.eq_of_unknown (h : table.Follows (.reference m) t) (unknown : m ∉ table.keys) :
    t = .reference m := by
  cases h with
  | here => rfl
  | body found => exact absurd (mem_keys_of_find? found) unknown

/-- Only one name on a chain has no body. -/
theorem unknown_unique (h : table.Follows s (.reference m)) (unknown : m ∉ table.keys)
    (h' : table.Follows s (.reference n)) (unknown' : n ∉ table.keys) : n = m := by
  rcases h.total h' with ahead | back
  · exact Schema.reference.inj (ahead.eq_of_unknown unknown)
  · exact (Schema.reference.inj (back.eq_of_unknown unknown')).symm

/-- A name is reported as unresolved if it is the one on the chain that has no body. -/
theorem resolve_eq_unresolved_iff : table.resolve s = .error (.unresolvedReference m) ↔
    table.Follows s (.reference m) ∧ m ∉ table.keys := by
  constructor
  · intro failed
    cases fails_of_resolve failed with
    | unresolved follows unknown => exact ⟨follows, unknown⟩
  · rintro ⟨follows, unknown⟩
    obtain ⟨e, failed⟩ := dangles_iff.1 (.inl ⟨m, follows, unknown⟩)
    cases fails_of_resolve failed with
    | unresolved follows' unknown' => rw [failed, unknown_unique follows unknown follows' unknown']
    | cycle way cycle =>
        obtain ⟨next, points⟩ := exists_points_of_cycle way cycle follows
        exact absurd (mem_keys_of_find? points) unknown

/-- A name is reported as a cycle if it comes at one certain position of an endless chain. -/
theorem resolve_eq_cycle_iff : table.resolve s = .error (.referenceCycle m) ↔
    ∃ chain, s = .reference (chain 0) ∧ table.Endless chain ∧ m = chain (table.length + 1) := by
  constructor
  · intro failed
    cases fails_of_resolve failed with
    | cycle way cycle =>
        obtain ⟨chain, rfl, endless⟩ := exists_endless way cycle
        rw [resolve, endless.follow_eq] at failed
        cases failed
        exact ⟨chain, rfl, endless, rfl⟩
  · rintro ⟨chain, rfl, endless, rfl⟩
    exact endless.follow_eq _

/-- There is no fourth answer. -/
theorem resolve_cases (table : Table) (s : Schema) : (∃ t, table.resolve s = .ok t) ∨
    (∃ m, table.resolve s = .error (.unresolvedReference m)) ∨
      ∃ m, table.resolve s = .error (.referenceCycle m) := by
  cases result : table.resolve s with
  | ok t => exact .inl ⟨t, rfl⟩
  | error e =>
      cases fails_of_resolve result with
      | @unresolved m => exact .inr (.inl ⟨m, rfl⟩)
      | @cycle m => exact .inr (.inr ⟨m, rfl⟩)

/-- Whatever the table, `resolve` gives one of three answers, and each of them says what the
chain of references is like.  It gives the schema at the end of the chain, or the first name
without a body, behind which there is nothing.  Otherwise the chain has no end, and it gives
the name that comes after all that fit into the table, which lies on a cycle. -/
theorem resolve_tells_chains_apart (table : Table) (s : Schema) :
    ((∃ t, table.resolve s = .ok t) ∨ (∃ m, table.resolve s = .error (.unresolvedReference m)) ∨
      ∃ m, table.resolve s = .error (.referenceCycle m)) ∧
    (∀ t, table.resolve s = .ok t ↔ table.Follows s t ∧ ∀ name, t ≠ .reference name) ∧
    (∀ m, table.resolve s = .error (.unresolvedReference m) ↔
      (table.Follows s (.reference m) ∧ m ∉ table.keys) ∧
        ∀ n, table.Follows s (.reference n) → n ≠ m → n ∈ table.keys) ∧
    (∀ m, table.resolve s = .error (.referenceCycle m) ↔
      (∃ chain, s = .reference (chain 0) ∧ table.Endless chain ∧
        m = chain (table.length + 1)) ∧ TransGen table.Points m m) ∧
    ((∃ m, table.resolve s = .error (.referenceCycle m)) ↔ ¬ table.Ends s) := by
  refine ⟨resolve_cases table s, fun t => resolve_eq_ok_iff, fun m => ?_, fun m => ?_, ?_⟩
  · rw [resolve_eq_unresolved_iff]
    refine ⟨fun ends => ⟨ends, fun n follows other => ?_⟩, And.left⟩
    by_contra unknown
    exact other (unknown_unique ends.1 ends.2 follows unknown)
  · rw [← resolve_eq_cycle_iff]
    refine ⟨fun failed => ⟨failed, ?_⟩, And.left⟩
    cases fails_of_resolve failed with
    | cycle _ cycle => exact cycle
  · constructor
    · rintro ⟨m, failed⟩
      obtain ⟨chain, rfl, endless, -⟩ := resolve_eq_cycle_iff.1 failed
      exact endless.not_ends
    · intro endless
      rcases resolve_cases table s with ⟨t, found⟩ | ⟨m, failed⟩ | cycle
      · exact absurd (.inl ⟨t, resolve_eq_ok_iff.1 found⟩) endless
      · exact absurd (.inr ⟨m, resolve_eq_unresolved_iff.1 failed⟩) endless
      · exact cycle

-- The way into the cycle of `b` and `c` is not reported, and a chain through all names resolves.
example : resolve [("a", .reference "b"), ("b", .reference "c"), ("c", .reference "b")]
    (.reference "a") = .error (.referenceCycle "c") := rfl
example : resolve [("a", .reference "b"), ("b", .reference "c"), ("c", .literal .null)]
    (.reference "a") = .ok (.literal .null) := rfl

end Table

end DataShape
