import DataShape.Proofs.Names.Unfolding

/-!
# Chains of references

From a schema the references lead along one way, which is its *chain*.  The chain ends
at a schema that is no reference, or at a name without a body, or it never ends.

`resolve` tells the three apart (`resolve_eq_ok_iff`, `fails_of_resolve`).  It stops after
one name more than the table has.  By then some name has come up twice, and what comes
after it on a chain that cannot branch is a cycle.  So the name that is reported lies on
the cycle itself, however long the way into the cycle is (`Chain.cycle`).
-/

namespace DataShape

open Relation (ReflTransGen TransGen)

namespace Table

/-- The body of a name is a reference to another name. -/
def Points (table : Table) (name next : String) : Prop :=
  Entries.find? name table = some (.reference next)

/-- The references from a schema lead to a name without a body, or they lead to nothing
but references. -/
def Dangles (table : Table) (s : Schema) : Prop :=
  (∃ m, table.Follows s (.reference m) ∧ m ∉ table.keys) ∨
    ¬ ∃ t, table.Follows s t ∧ ∀ name, t ≠ .reference name

/-- The error that tells how the references from a schema fail. -/
inductive Fails (table : Table) (s : Schema) : DefinitionError → Prop
  /-- The name has no body. -/
  | unresolved {m : String} : table.Follows s (.reference m) → m ∉ table.keys →
      Fails table s (.unresolvedReference m)
  /-- The name lies on a cycle of references. -/
  | cycle {m : String} : table.Follows s (.reference m) → TransGen table.Points m m →
      Fails table s (.referenceCycle m)

variable {table : Table} {s t u : Schema} {n m k : String} {trail : List String} {limit : Nat}

/-! ## A chain does not branch -/

theorem Points.unique (h : table.Points n m) (h' : table.Points n k) : m = k := by
  simpa [Points] using h.symm.trans h'

/-- Of two schemas on one chain, one leads to the other. -/
theorem Follows.total (h : table.Follows s t) (h' : table.Follows s u) :
    table.Follows t u ∨ table.Follows u t := by
  induction h with
  | here => exact .inl h'
  | body found follows ih =>
      cases h' with
      | here => exact .inr (.body found follows)
      | body found' h' =>
          cases found.symm.trans found'
          exact ih h'

/-- From something other than a reference a chain leads nowhere else. -/
theorem Follows.eq_of_ne_reference (h : table.Follows t u) (other : ∀ name, t ≠ .reference name) :
    u = t := by
  cases h with
  | here => rfl
  | body => exact absurd rfl (other _)

theorem follows_of_reflTransGen (h : ReflTransGen table.Points n m) :
    table.Follows (.reference n) (.reference m) := by
  induction h using ReflTransGen.head_induction_on with
  | refl => exact .here
  | head points _ ih => exact .body points ih

/-- What a name that returns to itself points to leads back to the name. -/
theorem Points.returns (cycle : TransGen table.Points n n) (h : ReflTransGen table.Points n m) :
    ReflTransGen table.Points m n := by
  induction h with
  | refl => exact .refl
  | tail _ points ih =>
      -- The way back is not empty, and its first step is the only one there is.
      obtain ⟨next, step, rest⟩ := TransGen.head'_iff.1 (TransGen.trans_right ih cycle)
      exact points.unique step ▸ rest

/-- Everything on the chain of a name that returns to itself returns to itself. -/
theorem Points.cycle (cycle : TransGen table.Points n n) (h : ReflTransGen table.Points n m) :
    TransGen table.Points m m :=
  TransGen.trans_left (TransGen.trans_right (Points.returns cycle h) cycle) h

/-- The chain of a name that returns to itself has nothing but references. -/
theorem exists_reference_of_cycle (h : table.Follows (.reference n) t)
    (cycle : TransGen table.Points n n) : ∃ m, t = .reference m := by
  generalize start : Schema.reference n = s at h
  induction h generalizing n with
  | here => exact ⟨n, start.symm⟩
  | @body name body t found _ ih =>
      obtain rfl : n = name := Schema.reference.inj start
      obtain ⟨next, points, -⟩ := TransGen.head'_iff.1 cycle
      obtain rfl : body = .reference next := Option.some.inj (found.symm.trans points)
      exact ih (Points.cycle cycle (.single points)) rfl

/-! ## What is found -/

theorem follows_of_follow (found : table.follow limit s = .ok t) : table.Follows s t :=
  follow_ind (motive := table.Follows s)
    (fun _ _ lookup follows => follows.trans (.body lookup .here)) found .here

theorem mem_keys_of_find? {body : Schema} (found : Entries.find? n table = some body) :
    n ∈ table.keys := by
  rw [← Entries.has_iff_mem_keys, Entries.has, found]
  rfl

/-- A chain that fails leads to nothing but references. -/
theorem Fails.dangles {e : DefinitionError} (fails : table.Fails s e) : table.Dangles s := by
  cases fails with
  | unresolved follows unknown => exact .inl ⟨_, follows, unknown⟩
  | @cycle m follows cycle =>
      refine .inr ?_
      rintro ⟨t, follows', other⟩
      rcases follows.total follows' with ahead | back
      · obtain ⟨k, rfl⟩ := exists_reference_of_cycle ahead cycle
        exact other k rfl
      · exact absurd (back.eq_of_ne_reference other).symm (other m)

/-- A chain that leads to something other than a reference does not dangle. -/
theorem not_dangles_of_follows (h : table.Follows s t) (other : ∀ name, t ≠ .reference name) :
    ¬ table.Dangles s := by
  rintro (⟨m, follows, unknown⟩ | none)
  · rcases h.total follows with ahead | back
    · exact absurd (ahead.eq_of_ne_reference other).symm (other m)
    · cases back with
      | here => exact absurd rfl (other m)
      | body found => exact unknown (mem_keys_of_find? found)
  · exact none ⟨t, h, other⟩

/-! ## What is reported -/

/-- A chain goes through names with bodies to a last name, and each of them points to all
later ones. -/
structure Chain (table : Table) (passed : List String) (m : String) : Prop where
  known : passed ⊆ table.keys
  ordered : (passed ++ [m]).Pairwise (TransGen table.Points)

/-- A chain is extended at its front by a name that points to all of it. -/
theorem Chain.cons (chain : table.Chain trail m) (known : n ∈ table.keys)
    (ahead : ∀ k ∈ trail ++ [m], TransGen table.Points n k) : table.Chain (n :: trail) m :=
  ⟨List.cons_subset.2 ⟨known, chain.known⟩, List.pairwise_cons.2 ⟨ahead, chain.ordered⟩⟩

/-- A chain that goes through more names than the table has ends on a cycle. -/
theorem Chain.cycle (chain : table.Chain trail m) (long : table.length < trail.length) :
    TransGen table.Points m m := by
  obtain ⟨passed, -, last⟩ := List.pairwise_append.1 chain.ordered
  -- Were no name of the trail to come up again, the trail would fit into the table.
  by_contra acyclic
  have distinct : trail.Nodup := passed.imp_of_mem fun {a b} mem _ leads same => by
    have way : TransGen table.Points a m := last a mem m (by simp)
    exact acyclic (Points.cycle (same ▸ leads) way.to_reflTransGen)
  have fits := (distinct.subperm chain.known).length_le
  rw [Entries.keys, List.length_map] at fits
  omega

/-- The way from a name either fails, or it uses up the limit on a chain. -/
theorem fails_or_chain {e : DefinitionError}
    (failed : table.follow limit (.reference n) = .error e) :
    (∃ m, e = .unresolvedReference m ∧ ReflTransGen table.Points n m ∧ m ∉ table.keys) ∨
      ∃ m trail, e = .referenceCycle m ∧ trail.length = limit ∧ table.Chain trail m ∧
        ∀ k ∈ trail ++ [m], ReflTransGen table.Points n k := by
  induction limit generalizing n with
  | zero =>
      obtain rfl : .referenceCycle n = e := by simpa [follow] using failed
      exact .inr ⟨n, [], rfl, rfl, ⟨List.nil_subset _, List.pairwise_singleton ..⟩,
        by simpa using ReflTransGen.refl⟩
  | succ limit ih =>
      rw [follow_reference_succ] at failed
      split at failed
      · next unknown =>
          cases failed
          exact .inl ⟨n, rfl, .refl, Entries.find?_eq_none_iff.1 unknown⟩
      · next body found =>
          by_cases reference : ∃ next, body = .reference next
          · obtain ⟨next, rfl⟩ := reference
            have points : table.Points n next := found
            rcases ih failed with ⟨m, rfl, way, unknown⟩ | ⟨m, trail, rfl, length, chain, ahead⟩
            · exact .inl ⟨m, rfl, .head points way, unknown⟩
            · refine .inr ⟨m, n :: trail, rfl, by rw [List.length_cons, length], ?_, ?_⟩
              · exact chain.cons (mem_keys_of_find? found) fun k mem => .head' points (ahead k mem)
              · exact List.forall_mem_cons.2 ⟨.refl, fun k mem => .head points (ahead k mem)⟩
          · rw [follow_of_ne_reference _ fun next eq => reference ⟨next, eq⟩] at failed
            cases failed

/-- What `resolve` reports tells how the references fail. -/
theorem fails_of_resolve {e : DefinitionError} (failed : table.resolve s = .error e) :
    table.Fails s e := by
  by_cases reference : ∃ n, s = .reference n
  · obtain ⟨n, rfl⟩ := reference
    rcases fails_or_chain failed with ⟨m, rfl, way, unknown⟩ | ⟨m, trail, rfl, length, chain, ahead⟩
    · exact .unresolved (follows_of_reflTransGen way) unknown
    · exact .cycle (follows_of_reflTransGen (ahead m (by simp))) (chain.cycle (by omega))
  · rw [resolve, follow_of_ne_reference _ fun n eq => reference ⟨n, eq⟩] at failed
    cases failed

/-- A schema resolves to what its chain ends at. -/
theorem resolve_eq_ok_iff :
    table.resolve s = .ok t ↔ table.Follows s t ∧ ∀ name, t ≠ .reference name := by
  constructor
  · exact fun found => ⟨follows_of_follow found, ne_reference_of_follow found⟩
  · rintro ⟨follows, other⟩
    cases result : table.resolve s with
    | error e =>
        exact absurd (fails_of_resolve result).dangles (not_dangles_of_follows follows other)
    | ok u =>
        rcases follows.total (follows_of_follow result) with ahead | back
        · rw [ahead.eq_of_ne_reference other]
        · rw [back.eq_of_ne_reference (ne_reference_of_follow result)]

/-- The references from a schema dangle exactly if it does not resolve. -/
theorem dangles_iff : table.Dangles s ↔ ∃ e, table.resolve s = .error e := by
  constructor
  · intro dangles
    cases result : table.resolve s with
    | error e => exact ⟨e, rfl⟩
    | ok t =>
        obtain ⟨follows, other⟩ := resolve_eq_ok_iff.1 result
        exact absurd dangles (not_dangles_of_follows follows other)
  · rintro ⟨e, failed⟩
    exact (fails_of_resolve failed).dangles

end Table

end DataShape
