import DataShape.Proofs.Value.Places
import DataShape.Proofs.Walk.Transcript

/-!
# Where the nodes of a walk stand

The tasks below a node are done at the first places of its value, in order, and what
they result in comes to stand at the same places.  Behind them everything stays
(`exists_rest`).  So the node of each call can be found in the result of the walk, with
the value that was put together there (`Walks.exists_rebuilt`).

If only scalars were replaced, by scalars, at nodes with nothing below them, then each
node can also be found in the old value (`Walks.at_old`), old value and result have one
shape (`Walks.shaped`), and nothing differs where nothing was replaced
(`Walks.replaced_or_alike`).
-/

namespace DataShape

open Value (At)

/-- Where a task is done, with its value. -/
def Task.place (task : Task) : Path × Value := (task.path, task.value)

/-- What a call leaves at its node, if these are the results below it. -/
def Call.rebuilt (call : Call) (results : List Value) : Value :=
  match call.1.schema with
  | none => call.2.on call.1.value
  | some t => assemble t (call.2.on call.1.value) results

/-- A scalar takes the place of another scalar, at a node with nothing below it. -/
structure Swapped (node : Node) (u : Value) : Prop where
  leaf : node.Leaf
  before : node.value.isScalar = true
  after : u.isScalar = true

variable {table : Table} {s t : Schema} {v w u : Value} {path : Path} {options : Options}
  {legs : List Leg} {results : List Value} {task : Task} {calls : List Call}

/-! ## Below a node -/

theorem drop_zipIdx {α : Type} (as : List α) (n : Nat) :
    as.zipIdx.drop n = (as.drop n).zipIdx n := by
  apply List.ext_getElem
  · simp
  · intro i _ _
    simp

/-- The tasks are done at the first places, and behind them everything stays. -/
theorem exists_rest (path : Path) (t : Schema) (v : Value) : ∃ rest,
    v.places path = (tasksBelow path t v).map Task.place ++ rest ∧
    ∀ results, results.length = (tasksBelow path t v).length →
      (assemble t v results).places path =
        List.zipWith (fun task u => (task.path, u)) (tasksBelow path t v) results ++ rest := by
  cases t with
  | list element =>
      cases v with
      | list items =>
          refine ⟨[], ?_, fun results length => ?_⟩
          · simp [Value.places, tasksBelow, Task.place, Function.comp_def]
          · simp only [tasksBelow, List.length_map, List.length_zipIdx] at length
            apply List.ext_getElem
            · simp [Value.places, assemble, tasksBelow, length]
            · intro i _ _
              simp [Value.places, assemble, tasksBelow]
      | _ => exact ⟨_, rfl, fun _ _ => rfl⟩
  | tuple elements =>
      cases v with
      | list items =>
          refine ⟨((Value.list items).places path).drop elements.length, ?_,
            fun results length => ?_⟩
          · refine (List.take_append_drop elements.length _).symm.trans (congrArg (· ++ _) ?_)
            apply List.ext_getElem
            · simp [Value.places, tasksBelow]
            · intro i _ _
              simp [Value.places, tasksBelow, Task.place]
          · simp only [tasksBelow, List.length_map, List.length_zipIdx, List.length_zip] at length
            rw [assemble, Value.places, Value.places, List.zipIdx_append, List.map_append,
              ← List.map_drop, drop_zipIdx]
            congr 1
            · apply List.ext_getElem
              · simp [tasksBelow, length]
              · intro i _ _
                simp [tasksBelow]
            · rcases Nat.le_total elements.length items.length with le | le
              · rw [length, Nat.min_eq_left le, Nat.zero_add]
              · rw [List.drop_of_length_le le]
                rfl
      | _ => exact ⟨_, rfl, fun _ _ => rfl⟩
  | object fields wildcard =>
      cases v with
      | dict entries =>
          refine ⟨[], ?_, fun results length => ?_⟩
          · simp [Value.places, tasksBelow, Task.place, Function.comp_def]
          · simp only [tasksBelow, List.length_map] at length
            apply List.ext_getElem
            · simp [Value.places, assemble, tasksBelow, length]
            · intro i _ _
              simp [Value.places, assemble, tasksBelow]
      | _ => exact ⟨_, rfl, fun _ _ => rfl⟩
  | _ => exact ⟨_, rfl, fun _ _ => rfl⟩

/-- The places below a node, as they come from the legs. -/
theorem exists_rest_of_legs (tasks : legs.map Leg.task = tasksBelow path t v) : ∃ rest,
    v.places path = legs.map (fun leg => leg.task.place) ++ rest ∧
      (assemble t v (legs.map Leg.result)).places path =
        legs.map (fun leg => (leg.task.path, leg.result)) ++ rest := by
  obtain ⟨rest, old, new⟩ := exists_rest path t v
  refine ⟨rest, ?_, ?_⟩
  · rw [old, ← tasks, List.map_map]
    rfl
  · rw [new _ (length_results tasks), ← tasks, List.zipWith_map, List.zipWith_self]

/-- At the root of a node nothing differs after the tasks below it are done. -/
theorem alike_assemble (path : Path) (length : results.length = (tasksBelow path t v).length) :
    v.Alike (assemble t v results) := by
  cases t with
  | list element =>
      cases v with
      | list items => simpa [tasksBelow, assemble, Value.Alike] using length.symm
      | _ => exact .refl _
  | tuple elements =>
      cases v with
      | list items =>
          simp only [tasksBelow, List.length_map, List.length_zipIdx, List.length_zip] at length
          show items.length = (results ++ items.drop elements.length).length
          rw [List.length_append, List.length_drop]
          omega
      | _ => exact .refl _
  | object fields wildcard =>
      cases v with
      | dict entries =>
          rw [tasksBelow, List.length_map] at length
          show Entries.keys entries = Entries.keys _
          apply List.ext_getElem
          · simp [Entries.keys, length]
          · intro i _ _
            simp [Entries.keys]
      | _ => exact .refl _
  | _ => exact .refl _

theorem alike_of_legs (tasks : legs.map Leg.task = tasksBelow path t v) :
    v.Alike (assemble t v (legs.map Leg.result)) :=
  alike_assemble path (length_results tasks)

/-- The tasks below a distinct value have distinct values. -/
theorem distinct_of_mem_tasksBelow (distinct : v.Distinct) (mem : task ∈ tasksBelow path t v) :
    task.value.Distinct := by
  obtain ⟨rest, old, -⟩ := exists_rest path t v
  have place : task.place ∈ v.places path := old ▸ List.mem_append_left _ (List.mem_map_of_mem mem)
  exact (Value.each_iff.1 distinct).2 _ (Value.mem_children_of_mem_places place)

/-- The legs are at different places of a distinct value, so the calls are too, if every call
of a leg is behind the place of the leg. -/
theorem nodup_paths_of_legs (distinct : v.Distinct)
    (tasks : legs.map Leg.task = tasksBelow path t v)
    (behind : ∀ leg ∈ legs, ∀ call ∈ leg.calls, ∃ n, Path.Behind n leg.task.path call.1.path)
    (each : ∀ leg ∈ legs, (leg.calls.map fun call => call.1.path).Nodup) :
    (path :: (legs.flatMap Leg.calls).map fun call => call.1.path).Nodup := by
  obtain ⟨rest, old, -⟩ := exists_rest_of_legs tasks
  have next : ∀ leg ∈ legs, Path.Behind 1 path leg.task.path := fun leg inside =>
    Value.behind_of_mem_places (c := leg.task.value)
      (old ▸ List.mem_append_left _ (List.mem_map_of_mem inside))
  have paths : (legs.map fun leg => leg.task.path).Nodup := by
    have nodup := distinct.nodup_places path
    rw [old, List.map_append, List.map_map] at nodup
    exact (List.nodup_append.1 nodup).1
  rw [List.map_flatMap, List.nodup_cons, List.nodup_flatMap]
  refine ⟨fun mem => ?_, each, (List.pairwise_map.1 paths).imp_of_mem ?_⟩
  · obtain ⟨leg, inside, mem⟩ := List.mem_flatMap.1 mem
    obtain ⟨call, told, same⟩ := List.mem_map.1 mem
    obtain ⟨n, further⟩ := behind leg inside call told
    have depth := ((next leg inside).trans further).depth_eq
    rw [same] at depth
    omega
  · intro leg leg' inside inside' ne q mem mem'
    obtain ⟨call, told, rfl⟩ := List.mem_map.1 mem
    obtain ⟨call', told', same⟩ := List.mem_map.1 mem'
    obtain ⟨_, further⟩ := behind leg inside call told
    obtain ⟨_, further'⟩ := behind leg' inside' call' told'
    rw [same] at further'
    exact ne ((next leg inside).next_unique further (next leg' inside') further')

/-! ## Calls -/

/-- At a leaf a call leaves the value after the visit. -/
theorem Node.Leaf.rebuilt_eq {node : Node} (leaf : node.Leaf) (answer : Visit)
    (results : List Value) : Call.rebuilt (node, answer) results = answer.on node.value := by
  obtain ⟨t, declared⟩ := leaf.exists_schema
  obtain ⟨path, schema, v, options⟩ := node
  cases declared
  exact leaf.assemble_eq _ _

/-- The node of every call stands in the result, as the call has left it. -/
theorem Walks.exists_rebuilt (walks : Walks table task w calls) : ∀ call ∈ calls, ∃ results,
    (∀ t, call.1.schema = some t →
      results.length = (tasksBelow call.1.path t (call.2.on call.1.value)).length) ∧
    At task.path w call.1.path (call.rebuilt results) := by
  induction walks with
  | undeclared => exact List.forall_mem_singleton.2 ⟨[], fun _ eq => (nomatch eq), .here⟩
  | named _ _ ih => exact ih
  | @visit path optional s t v answer legs _ _ tasks _ ih =>
      refine List.forall_mem_cons.2 ⟨⟨legs.map Leg.result, ?_, .here⟩, fun call mem => ?_⟩
      · intro u eq
        obtain rfl := Option.some.inj eq
        exact length_results tasks
      · obtain ⟨leg, inside, mem⟩ := List.mem_flatMap.1 mem
        obtain ⟨results, length, stands⟩ := ih leg inside call mem
        obtain ⟨rest, -, new⟩ := exists_rest_of_legs tasks
        refine ⟨results, length, .inside ?_ stands⟩
        rw [new]
        exact List.mem_append_left _ (List.mem_map_of_mem inside)

theorem swapped_of_leg {first : Call} {leg : Leg}
    (swapped : ∀ node u, (node, .replace u) ∈ first :: legs.flatMap Leg.calls → Swapped node u)
    (inside : leg ∈ legs) : ∀ node u, (node, .replace u) ∈ leg.calls → Swapped node u :=
  fun node u mem => swapped node u (.tail _ (List.mem_flatMap.2 ⟨leg, inside, mem⟩))

section Swapped

variable (swapped : ∀ node u, (node, .replace u) ∈ calls → Swapped node u)

include swapped

/-- The node of every call stands in the old value. -/
theorem Walks.at_old (walks : Walks table task w calls) :
    ∀ call ∈ calls, At task.path task.value call.1.path call.1.value := by
  induction walks with
  | undeclared => exact List.forall_mem_singleton.2 .here
  | named _ _ ih => exact ih swapped
  | @visit path optional s t v answer legs _ _ tasks _ ih =>
      refine List.forall_mem_cons.2 ⟨.here, fun call mem => ?_⟩
      obtain ⟨leg, inside, mem⟩ := List.mem_flatMap.1 mem
      cases answer with
      | keep =>
          obtain ⟨rest, old, -⟩ := exists_rest_of_legs tasks
          have stands := ih leg inside (swapped_of_leg swapped inside) call mem
          refine .inside (c := leg.task.value) ?_ stands
          show _ ∈ (Visit.on v .keep).places path
          rw [old]
          exact List.mem_append_left _ (List.mem_map_of_mem inside)
      | replace u =>
          rw [(swapped _ _ (.head _)).leaf.tasksBelow_eq_nil, List.map_eq_nil_iff] at tasks
          subst tasks
          cases inside

/-- The new value of a replaced node stands in the result. -/
theorem Walks.at_new (walks : Walks table task w calls) {node : Node}
    (mem : (node, .replace u) ∈ calls) : At task.path w node.path u := by
  obtain ⟨results, -, stands⟩ := walks.exists_rebuilt _ mem
  rwa [(swapped _ _ mem).leaf.rebuilt_eq] at stands

/-- No place of a distinct value is visited twice. -/
theorem Walks.nodup_paths (walks : Walks table task w calls) (distinct : task.value.Distinct) :
    (calls.map fun call => call.1.path).Nodup := by
  induction walks with
  | undeclared => exact List.nodup_singleton _
  | named _ _ ih => exact ih swapped distinct
  | @visit path optional s t v answer legs _ _ tasks each ih =>
      cases answer with
      | keep =>
          have tasks : legs.map Leg.task = tasksBelow path t v := tasks
          refine nodup_paths_of_legs distinct tasks (fun leg inside call mem => ?_)
            fun leg inside => ih leg inside (swapped_of_leg swapped inside) ?_
          · exact ((each leg inside).at_old (swapped_of_leg swapped inside) call mem).behind
          · exact distinct_of_mem_tasksBelow distinct (tasks ▸ List.mem_map_of_mem inside)
      | replace u =>
          rw [(swapped _ _ (.head _)).leaf.tasksBelow_eq_nil, List.map_eq_nil_iff] at tasks
          subst tasks
          exact List.nodup_singleton _

/-- The result has the shape of the old value. -/
theorem Walks.shaped (walks : Walks table task w calls) : task.value.Shaped w := by
  induction walks with
  | @undeclared path optional v answer =>
      cases answer with
      | keep => exact .refl v
      | replace u =>
          obtain ⟨t, eq⟩ := (swapped _ _ (.head _)).leaf.exists_schema
          cases eq
  | named _ _ ih => exact ih swapped
  | @visit path optional s t v answer legs _ _ tasks _ ih =>
      cases answer with
      | keep =>
          have tasks : legs.map Leg.task = tasksBelow path t v := tasks
          obtain ⟨rest, old, new⟩ := exists_rest_of_legs tasks
          refine (alike_of_legs tasks).shaped ?_
          rw [← Value.map_snd_places path v, ← Value.map_snd_places path (assemble t v _), old,
            new, List.map_append, List.map_append, List.map_map, List.map_map]
          refine List.rel_append ?_ (List.forall₂_same.2 fun u _ => .refl u)
          rw [List.forall₂_map_left_iff, List.forall₂_map_right_iff]
          exact List.forall₂_same.2 fun leg inside =>
            ih leg inside (swapped_of_leg swapped inside)
      | replace u =>
          have swap := swapped _ _ (.head _)
          rw [swap.leaf.assemble_eq]
          exact .scalar swap.before swap.after

/-- Where nothing was replaced, nothing differs. -/
theorem Walks.replaced_or_alike (walks : Walks table task w calls) :
    ∀ q a, At task.path task.value q a →
      (∃ node u, (node, .replace u) ∈ calls ∧ node.path = q) ∨
        ∃ b, At task.path w q b ∧ a.Alike b := by
  induction walks with
  | @undeclared path optional v answer =>
      cases answer with
      | keep => exact fun q a stands => .inr ⟨a, stands, .refl a⟩
      | replace u =>
          obtain ⟨t, eq⟩ := (swapped _ _ (.head _)).leaf.exists_schema
          cases eq
  | named _ _ ih => exact ih swapped
  | @visit path optional s t v answer legs _ _ tasks _ ih =>
      intro q a stands
      cases answer with
      | keep =>
          have tasks : legs.map Leg.task = tasksBelow path t v := tasks
          obtain ⟨rest, old, new⟩ := exists_rest_of_legs tasks
          cases stands with
          | here => exact .inr ⟨_, .here, alike_of_legs tasks⟩
          | @inside _ q' _ _ c _ mem stands =>
              rw [old] at mem
              rcases List.mem_append.1 mem with mem | mem
              · obtain ⟨leg, inside, place⟩ := List.mem_map.1 mem
                cases place
                rcases ih leg inside (swapped_of_leg swapped inside) q a stands with
                  ⟨node, u, mem, same⟩ | ⟨b, stands, alike⟩
                · exact .inl ⟨node, u, .tail _ (List.mem_flatMap.2 ⟨leg, inside, mem⟩), same⟩
                · refine .inr ⟨b, .inside (c := leg.result) ?_ stands, alike⟩
                  show _ ∈ (assemble t v _).places path
                  rw [new]
                  exact List.mem_append_left _ (List.mem_map_of_mem inside)
              · refine .inr ⟨a, .inside (c := c) ?_ stands, .refl a⟩
                show _ ∈ (assemble t v _).places path
                rw [new]
                exact List.mem_append_right _ mem
      | replace u =>
          have swap := swapped _ _ (.head _)
          cases stands with
          | here => exact .inl ⟨_, u, .head _, rfl⟩
          | inside mem =>
              rw [Value.places_eq_nil swap.before] at mem
              cases mem

end Swapped

end DataShape
