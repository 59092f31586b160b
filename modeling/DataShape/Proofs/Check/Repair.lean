import Mathlib.Data.List.Flatten
import DataShape.Proofs.Check.Termination

/-!
# Coercion only repairs

The walk of the coercer on a value is compared with two walks of the validator,
one on the value and one on its coercion.  Nothing is below a replaced node, so
all three walks visit the same places, and the first of the others visits the same
nodes (`Walks.unrepaired`).  On the coercion a container has the same length or
the same keys as before, which is all that it can raise failures for
(`raised_assemble`), and a replaced node raises nothing.  So of all that was raised
the coercion has left what the kept nodes raised (`Walks.repaired`).
-/

namespace DataShape

variable {table : Table} {s t : Schema} {v w u : Value} {path : Path} {options : Options}

/-! ## Kept and replaced nodes -/

/-- The value of the node was kept. -/
def Call.kept : Call → Bool
  | (_, .keep) => true
  | (_, .replace _) => false

/-- The call for the same node that keeps its value. -/
def Call.keeping (call : Call) : Call := (call.1, .keep)

/-- The value of the node was kept or repaired. -/
def Call.Repairs (table : Table) (call : Call) : Prop :=
  call.2 = .keep ∨ ∃ w, call.2 = .replace w ∧ Repaired table call.1 w

/-- Nothing is below a node that was repaired. -/
theorem Repaired.isLeaf {node : Node} (repaired : Repaired table node u) : node.Leaf :=
  repaired.leaf

/-! ## The walk on the old value -/

/-- A walk that keeps or repairs visits the nodes that a walk visits which keeps
everything. -/
theorem Walks.unrepaired {task : Task} {calls : List Call} (walks : Walks table task w calls)
    (repairs : ∀ call ∈ calls, Call.Repairs table call) :
    Walks table task task.value (calls.map Call.keeping) := by
  induction walks with
  | undeclared =>
      show Walks table _ (Visit.keep.on _) [(_, .keep)]
      exact .undeclared
  | named found _ ih => exact .named found (ih repairs)
  | @visit path optional s t v answer legs found named tasks _ ih =>
      obtain ⟨first, below⟩ := List.forall_mem_cons.1 repairs
      rcases first with rfl | ⟨u, rfl, repaired⟩
      · have tasks : legs.map Leg.task = tasksBelow path t v := tasks
        have each : ∀ leg ∈ legs,
            Walks table leg.task leg.task.value (leg.calls.map Call.keeping) :=
          fun leg mem => ih leg mem fun call inside =>
            below call (List.mem_flatMap.2 ⟨leg, mem, inside⟩)
        refine .of_legs .keep
          (legs.map fun leg => ⟨leg.task, leg.task.value, leg.calls.map Call.keeping⟩)
          found named ?_ ?_ ?_ ?_
        · rw [List.map_map]
          exact tasks
        · exact List.forall_mem_map.2 each
        · have values : (legs.map fun leg => leg.task.value) =
              (tasksBelow path t v).map Task.value := by
            rw [← tasks, List.map_map]
            rfl
          rw [List.map_map]
          exact (congrArg (assemble t v) values).trans (assemble_tasksBelow path t v)
        · simp [List.map_flatMap, List.flatMap_map, Call.keeping]
      · have none : legs = [] := by
          simpa [repaired.isLeaf.tasksBelow_eq_nil] using tasks
        subst none
        exact .keep_leaf found named repaired.isLeaf v

/-! ## The walk on the coercion -/

/-- The calls of a walk that keeps everything, on the result of a walk that keeps
or repairs: replaced nodes have their new values, and together all nodes raise what
the kept nodes raised. -/
structure Leaves (table : Table) (calls calls' : List Call) : Prop where
  kept : ∀ call ∈ calls', call.2 = .keep
  replaced : ∀ node u, (node, .replace u) ∈ calls → ({ node with value := u }, .keep) ∈ calls'
  raised : (calls'.flatMap fun call => raised table call.1) =
    (calls.filter Call.kept).flatMap fun call => raised table call.1

/-- A kept node leaves what is left below it and what it raised itself. -/
theorem exists_leaves_of_legs {optional : Bool} {legs : List Leg}
    (found : table.resolve s = .ok t) (named : ∀ name body, t ≠ .named name body)
    (tasks : legs.map Leg.task = tasksBelow path t v)
    (each : ∀ leg ∈ legs, ∃ calls', Walks table (leg.task.put leg.result) leg.result calls' ∧
      Leaves table leg.calls calls') :
    ∃ calls', Walks table ⟨path, optional, some s, assemble t v (legs.map Leg.result)⟩
        (assemble t v (legs.map Leg.result)) calls' ∧
      Leaves table ((⟨path, some t, v, ⟨t.nullable, optional⟩⟩, .keep) :: legs.flatMap Leg.calls)
        calls' := by
  choose! after walks leaves using each
  refine ⟨_, .again_of_legs found named tasks walks, ?_, ?_, ?_⟩
  · refine List.forall_mem_cons.2 ⟨rfl, fun call mem => ?_⟩
    obtain ⟨leg, inside, mem⟩ := List.mem_flatMap.1 mem
    exact (leaves leg inside).kept call mem
  · intro node u mem
    rcases List.mem_cons.1 mem with eq | mem
    · cases eq
    · obtain ⟨leg, inside, mem⟩ := List.mem_flatMap.1 mem
      have visited := (leaves leg inside).replaced node u mem
      exact .tail _ (List.mem_flatMap.2 ⟨leg, inside, visited⟩)
  · have rest : (legs.flatMap fun leg => (after leg).flatMap fun call => raised table call.1) =
        legs.flatMap fun leg =>
          (leg.calls.filter Call.kept).flatMap fun call => raised table call.1 :=
      List.flatMap_congr fun leg inside => (leaves leg inside).raised
    rw [List.flatMap_cons, List.filter_cons_of_pos rfl, List.flatMap_cons,
      List.filter_flatMap, List.flatMap_assoc, List.flatMap_assoc, rest]
    exact congrArg (· ++ _) (raised_assemble (length_results tasks))

/-- After a walk that keeps or repairs, a walk that keeps everything finds what was
left. -/
theorem Walks.repaired {task : Task} {calls : List Call} (walks : Walks table task w calls)
    (repairs : ∀ call ∈ calls, Call.Repairs table call) :
    ∃ calls', Walks table (task.put w) w calls' ∧ Leaves table calls calls' := by
  induction walks with
  | undeclared =>
      rcases repairs _ (List.mem_singleton.2 rfl) with rfl | ⟨u, -, repaired⟩
      · exact ⟨_, .undeclared, by simp, by simp, rfl⟩
      · obtain ⟨_, declared⟩ := repaired.isLeaf.exists_schema
        cases declared
  | named found _ ih =>
      obtain ⟨calls', walks, leaves⟩ := ih repairs
      exact ⟨calls', .named found walks, leaves⟩
  | @visit path optional s t v answer legs found named tasks _ ih =>
      obtain ⟨first, below⟩ := List.forall_mem_cons.1 repairs
      rcases first with rfl | ⟨u, rfl, repaired⟩
      · exact exists_leaves_of_legs found named tasks fun leg mem =>
          ih leg mem fun call inside => below call (List.mem_flatMap.2 ⟨leg, mem, inside⟩)
      · have none : legs = [] := by
          simpa [repaired.isLeaf.tasksBelow_eq_nil] using tasks
        subst none
        have result : assemble t (Visit.on v (.replace u)) [] = u :=
          repaired.isLeaf.assemble_eq u []
        refine ⟨_, .keep_leaf found named repaired.isLeaf _, by simp, ?_, ?_⟩
        · intro node u' mem
          cases List.mem_singleton.1 mem
          rw [List.map_nil, result]
          exact .head _
        · rw [List.map_nil, result]
          simpa [Call.kept] using repaired.after

/-- Where nothing is wrong, nothing is replaced. -/
theorem Walks.eq_of_raised_nil {task : Task} {calls : List Call} (walks : Walks table task w calls)
    (repairs : ∀ call ∈ calls, Call.Repairs table call)
    (none : (calls.flatMap fun call => raised table call.1) = []) : w = task.value := by
  have kept : ∀ call ∈ calls, call.2 = .keep := by
    intro call mem
    rcases repairs call mem with kept | ⟨u, -, repaired⟩
    · exact kept
    · obtain ⟨m, -, raises⟩ := repaired.before
      rw [List.flatMap_eq_nil_iff.1 none call mem] at raises
      cases raises
  exact (walks.met_iff kept).1

/-! ## The failures before and after -/

namespace Resolved

/-- The coercion of a value with all calls of the coercer. -/
def Coerces (r : Resolved) (v w : Value) (calls : List Call) : Prop :=
  (walk r.table (traced (coercer (convertAtChoice r.table (walkLimit r.table r.root v))))
    (walkLimit r.table r.root v) r.root v).Gives ((), []) w ((), calls)

/-- Every value has a coercion, with a transcript that keeps or repairs. -/
theorem exists_coerces (r : Resolved) (v : Value) : ∃ w calls, r.Coerces v w calls ∧
    (r.coerce v).result = .ok w ∧ Walks r.table (r.task v) w calls ∧
      ∀ call ∈ calls, Call.Repairs r.table call := by
  obtain ⟨w, ⟨_, calls⟩, gives⟩ := r.exists_gives (Nat.le_refl (walkLimit r.table r.root v))
    (fun _ inside => (r.tameAt_coercer inside).traced) ((), [])
  obtain ⟨_, walks, answers⟩ := Walks.of_gives gives
  obtain ⟨answers, rfl⟩ := answers_traced_iff.1 answers
  refine ⟨w, calls, gives, ?_, walks, fun call mem => ?_⟩
  · obtain ⟨w', coerced⟩ := r.exists_coerceWithin v
    have done := coerced _ (Nat.le_refl _)
    obtain ⟨calls', walks', answers'⟩ := Walks.of_gives (coerceWithin_eq_ok_iff.1 done)
    obtain ⟨rfl, -, -⟩ := walks.unique (.refl _) answers walks' answers'
    exact done
  · obtain ⟨_, _, asked⟩ := exists_gives_of_answers answers mem
    exact of_gives_coercer asked

/-- The failures of a coerced value are those that the kept nodes raised before. -/
theorem coercion_only_repairs (r : Resolved) (v : Value) : ∃ w calls,
    r.Coerces v w calls ∧ (r.coerce v).result = .ok w ∧
    (∀ call ∈ calls, ∀ st,
      (validator (satisfies r.table (walkLimit r.table r.root v)) call.1).Gives st .keep
        (st ++ raised r.table call.1)) ∧
    ∃ before after, (r.failures v).result = .ok before ∧ (r.failures w).result = .ok after ∧
      before = (calls.flatMap fun call => raised r.table call.1) ∧
      after = ((calls.filter Call.kept).flatMap fun call => raised r.table call.1) ∧
      after.Sublist before ∧
      (∀ node u, (node, .replace u) ∈ calls → Repaired r.table node u ∧ ∀ st,
        (validator (satisfies r.table (walkLimit r.table r.root w)) { node with value := u }).Gives
          st .keep st) ∧
      (before = [] → w = v) := by
  obtain ⟨w, calls, coerces, coerced, walks, repairs⟩ := r.exists_coerces v
  refine ⟨w, calls, coerces, coerced, ?_⟩
  -- The walk of the validator on the old value visits the nodes of the coercer.
  obtain ⟨old, walksOld, keptOld, found⟩ := r.exists_collectFailures v
  obtain ⟨foundOld, settled⟩ := found _ (Nat.le_refl _)
  have keeping : ∀ call ∈ calls.map Call.keeping, call.2 = .keep :=
    List.forall_mem_map.2 fun _ _ => rfl
  obtain rfl := (walks.unrepaired repairs).unique_of_kept keeping walksOld keptOld
  -- On the coercion it visits what is left of them.
  obtain ⟨new, walksNew, keptNew, foundNew⟩ := r.exists_collectFailures w
  obtain ⟨foundNew, settledNew⟩ := foundNew _ (Nat.le_refl _)
  obtain ⟨calls', walks', leaves⟩ := walks.repaired repairs
  obtain rfl := walks'.unique_of_kept leaves.kept walksNew keptNew
  have before := r.failures_eq_ok_iff.2 ⟨v, foundOld⟩
  have after := r.failures_eq_ok_iff.2 ⟨w, foundNew⟩
  rw [List.flatMap_map] at before
  rw [leaves.raised] at after
  have repaired : ∀ node u, (node, .replace u) ∈ calls → Repaired r.table node u := by
    intro node u mem
    rcases repairs _ mem with kept | ⟨w, replaced, repaired⟩
    · cases kept
    · cases replaced
      exact repaired
  refine ⟨?_, _, _, before, after, rfl, rfl, ?_, ?_, ?_⟩
  · intro call mem st
    have settles := settled _ (List.mem_map_of_mem mem)
    exact (gives_validator_iff (judges_satisfies _ _)).2 ⟨settles, rfl, rfl⟩
  · exact List.filter_sublist.flatMap _
  · intro node u mem
    refine ⟨repaired node u mem, fun st => ?_⟩
    have settles := settledNew _ (leaves.replaced node u mem)
    refine (gives_validator_iff (judges_satisfies _ _)).2 ⟨settles, rfl, ?_⟩
    rw [(repaired node u mem).after, List.append_nil]
  · exact walks.eq_of_raised_nil repairs

end Resolved

end DataShape
