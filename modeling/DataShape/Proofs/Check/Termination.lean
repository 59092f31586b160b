import DataShape.Proofs.Check.Conversion

/-!
# An accepted schema can always be walked

Neither the schema nor the value gets smaller with every step of a walk.  A limit
that fits gets smaller, and the limit of a walk fits the root of an accepted schema
because its names are in order.  So every walk ends whose visitor never gives up
and never makes a value larger, and with it everything that is built from walks.
The walks that the validator and the coercer start at a choice need no more than
the walk that they are part of.

To end means more here than to stay within the limit.  With all larger limits the
result is the same, so it is also that of a walk without any limit.
-/

namespace DataShape

namespace Resolved

variable {limit : Nat} {v w : Value}

/-- The coercer is tame at every node that its limit fits. -/
theorem tameAt_coercer (r : Resolved) {node : Node} (inside : node.Fits r.table r.bound limit) :
    TameAt (coercer (convertAtChoice r.table limit)) node :=
  DataShape.tameAt_coercer fun _ declared =>
    exists_convertAtChoice r.grounded_table (inside _ declared)

theorem coerceWithin_eq_ok_iff {table : Table} {s : Schema} :
    (coerceWithin table limit s v).result = .ok w ↔
      (walk table (coercer (convertAtChoice table limit)) limit s v).Gives () w () := by
  rw [coerceWithin, Report.result_map_eq_ok_iff]
  constructor
  · rintro ⟨⟨_, _⟩, started, rfl⟩
    exact Run.start_eq_ok_iff.1 started
  · intro gives
    exact ⟨(w, ()), Run.start_eq_ok_iff.2 gives, rfl⟩

/-- With every limit that is large enough, a value has the same coercion. -/
theorem exists_coerceWithin (r : Resolved) (v : Value) :
    ∃ w, ∀ limit, walkLimit r.table r.root v ≤ limit →
      (coerceWithin r.table limit r.root v).result = .ok w := by
  obtain ⟨w, st, gives⟩ := r.exists_gives (Nat.le_refl _) (fun _ => r.tameAt_coercer) ()
  refine ⟨w, fun limit le => ?_⟩
  obtain ⟨w', st', gives'⟩ := r.exists_gives le (fun _ => r.tameAt_coercer) ()
  have agree : Agree (coercer (convertAtChoice r.table (walkLimit r.table r.root v)))
      (coercer (convertAtChoice r.table limit)) :=
    agree_coercer fun _ _ _ _ first second => convertAtChoice_unique first second
  obtain ⟨rfl, rfl⟩ := gives_walk_unique agree gives gives'
  exact coerceWithin_eq_ok_iff.2 gives'

/-- Every walk from the root of an accepted schema ends with a result if its
visitor always answers and never with a larger value.  All failures of a value are
found, and every value has a coercion. -/
theorem every_walk_ends (r : Resolved) (v : Value) :
    (∀ (σ : Type) (visit : Visitor σ), (∀ node, TameAt visit node) → ∀ st, ∃ w st',
      ∀ limit, walkLimit r.table r.root v ≤ limit →
        (walk r.table visit limit r.root v).Gives st w st') ∧
    (∃ found, (r.failures v).result = .ok found ∧
      (r.validate v).result = .ok (found.map Failure.message) ∧
      (r.isValid v).result = .ok found.isEmpty ∧
      ∀ limit, walkLimit r.table r.root v ≤ limit →
        (collectFailures r.table limit r.root v).Gives [] v found) ∧
    ∃ w, (r.coerce v).result = .ok w ∧
      ∀ limit, walkLimit r.table r.root v ≤ limit →
        (coerceWithin r.table limit r.root v).result = .ok w := by
  refine ⟨fun σ visit tame st => r.exists_gives_walk tame st, ?_, ?_⟩
  · obtain ⟨calls, -, -, collected⟩ := r.exists_collectFailures v
    have found := r.failures_eq_ok_iff.2 ⟨v, (collected _ (Nat.le_refl _)).1⟩
    refine ⟨_, found, ?_, r.isValid_eq found, fun limit le => (collected limit le).1⟩
    rw [validate, Report.result_map, found]
    rfl
  · obtain ⟨w, coerced⟩ := r.exists_coerceWithin v
    exact ⟨w, coerced _ (Nat.le_refl _), coerced⟩

/-- Count the nodes of a walk. -/
def counting : Visitor Nat := fun _ => do
  Run.update (· + 1)
  return .keep

/-- The nodes of a chain can be counted. -/
theorem counting_chain_ends : (∀ node, TameAt counting node) ∧ ∃ w n, ∀ limit,
    walkLimit chain.table chain.root (.dict [("head", .int 1), ("tail", .null)]) ≤ limit →
      (walk chain.table counting limit chain.root
        (.dict [("head", .int 1), ("tail", .null)])).Gives 0 w n := by
  have tame : ∀ node, TameAt counting node := by
    intro node n
    exact ⟨.keep, n + 1, by simp [counting], Nat.le_refl _⟩
  exact ⟨tame, (every_walk_ends chain _).1 Nat counting tame 0⟩

end Resolved

end DataShape
