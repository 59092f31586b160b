import DataShape.Proofs.Value.Rearranged
import DataShape.Proofs.Walk.Transcript

/-!
# Walks of rearranged values

The walks of a value and of a rearranged one visit related nodes, but not in the same order.
Below a dictionary the second walk goes on in the order of the second dictionary
(`exists_legs_rearranged`).  So its calls are those of related nodes, permuted, and what it
results in is rearranged from the result of the first walk (`Walks.rearranged`).  The
answers may replace values as long as the new values of related nodes are related.
-/

namespace DataShape

open Value (Rearranged)

/-! ## Definitions -/

/-- The same task for a rearranged value. -/
structure Task.Rearranged (R : Value → Value → Prop) (task task' : Task) : Prop where
  path : task.path = task'.path
  optional : task.optional = task'.optional
  schema : task.schema = task'.schema
  value : task.value.Rearranged R task'.value

/-- The same node with a rearranged value. -/
structure Node.Rearranged (R : Value → Value → Prop) (node node' : Node) : Prop where
  path : node.path = node'.path
  schema : node.schema = node'.schema
  value : node.value.Rearranged R node'.value
  options : node.options = node'.options

/-- The key of the last step of a path. -/
def Path.lastKey : Path → String
  | .key _ name => name
  | _ => ""

/-- What a leg leaves in the dictionary that it comes from. -/
def Leg.entry (leg : Leg) : String × Value := (leg.task.path.lastKey, leg.result)

variable {table : Table} {R : Value → Value → Prop} {path : Path} {t : Schema} {v v' w w' : Value}
  {legs legs' : List Leg} {calls calls' : List Call}

/-- Nothing of a node with a scalar is rearranged. -/
theorem Node.Rearranged.eq_of_isScalar {node node' : Node} (h : node.Rearranged Eq node')
    (scalar : node.value.isScalar = true) : node = node' := by
  obtain ⟨path, schema, v, options⟩ := node
  obtain ⟨path', schema', v', options'⟩ := node'
  obtain ⟨rfl, rfl, value, rfl⟩ := h
  obtain rfl : v = v' := value.eq_of_isScalar scalar
  rfl

/-! ## Below a node -/

/-- A dictionary is put together from what its legs leave. -/
theorem assemble_entries {fields : List (Field Schema)} {wildcard : Option Schema}
    {entries : List (String × Value)}
    (tasks : legs.map Leg.task = tasksBelow path (.object fields wildcard) (.dict entries)) :
    assemble (.object fields wildcard) (.dict entries) (legs.map Leg.result) =
      .dict (legs.map Leg.entry) := by
  have keys : entries.map Prod.fst = legs.map fun leg => leg.task.path.lastKey := by
    have paths := congrArg (List.map fun task : Task => task.path.lastKey) tasks
    rw [tasksBelow, List.map_map, List.map_map] at paths
    exact paths.symm
  show Value.dict (List.zipWith (fun entry result => (entry.1, result)) entries _) = _
  rw [← List.zipWith_map_left, keys, List.zipWith_map, List.zipWith_self]
  rfl

theorem tasksBelow_of_isScalar (scalar : v.isScalar = true) : tasksBelow path t v = [] := by
  cases v with
  | null | list | dict => cases scalar
  | _ => cases t <;> rfl

theorem assemble_of_isScalar (scalar : v.isScalar = true) (results : List Value) :
    assemble t v results = v := by
  cases v with
  | null | list | dict => cases scalar
  | _ => cases t <;> rfl

/-- Below lists the tasks belong together one by one. -/
theorem tasksBelow_items {items items' : List Value}
    (each : List.Forall₂ (Rearranged R) items items') :
    List.Forall₂ (Task.Rearranged R) (tasksBelow path t (.list items))
      (tasksBelow path t (.list items')) := by
  cases t with
  | list element =>
      simp only [tasksBelow, List.forall₂_map_left_iff, List.forall₂_map_right_iff]
      refine (Schema.forall₂_zipIdx each 0).imp ?_
      rintro ⟨item, i⟩ ⟨item', _⟩ ⟨related, rfl⟩
      exact ⟨rfl, rfl, rfl, related⟩
  | tuple elements =>
      have same : List.Forall₂ Eq elements elements := List.forall₂_same.2 fun _ _ => rfl
      simp only [tasksBelow, List.forall₂_map_left_iff, List.forall₂_map_right_iff]
      refine (Schema.forall₂_zipIdx (Schema.forall₂_zip same each) 0).imp ?_
      rintro ⟨⟨element, item⟩, i⟩ ⟨⟨_, item'⟩, _⟩ ⟨⟨rfl, related⟩, rfl⟩
      exact ⟨rfl, rfl, rfl, related⟩
  | _ => exact .nil

/-- The tasks below rearranged values belong together, after the second ones are permuted. -/
theorem exists_tasks_rearranged (path : Path) (t : Schema) (h : v.Rearranged R v') :
    ∃ mid, List.Forall₂ (Task.Rearranged R) (tasksBelow path t v) mid ∧
      mid.Perm (tasksBelow path t v') := by
  cases h with
  | null => exact ⟨_, by cases t <;> exact .nil, .refl _⟩
  | scalar scalar scalar' =>
      rw [tasksBelow_of_isScalar scalar, tasksBelow_of_isScalar scalar']
      exact ⟨[], .nil, .nil⟩
  | list length each =>
      exact ⟨_, tasksBelow_items (Schema.forall₂_iff_forall_zip.2 ⟨length, each⟩), .refl _⟩
  | @dict as bs cs keys each perm =>
      cases t with
      | object fields wildcard =>
          refine ⟨_, ?_, perm.map _⟩
          simp only [tasksBelow, List.forall₂_map_left_iff, List.forall₂_map_right_iff]
          refine (Value.forall₂_entries_iff.2 ⟨keys, each⟩).imp ?_
          rintro ⟨key, a⟩ ⟨_, b⟩ ⟨rfl, related⟩
          exact ⟨rfl, rfl, rfl, related⟩
      | _ => exact ⟨[], .nil, .nil⟩

/-- So do the legs. -/
theorem exists_legs_rearranged (h : v.Rearranged R v')
    (tasks : legs.map Leg.task = tasksBelow path t v)
    (tasks' : legs'.map Leg.task = tasksBelow path t v') :
    ∃ mid, List.Forall₂ (fun leg leg' => leg.task.Rearranged R leg'.task) legs mid ∧
      mid.Perm legs' := by
  obtain ⟨mid, related, perm⟩ := exists_tasks_rearranged path t h
  have each : List.Forall₂ (fun task leg => task = leg.task) (tasksBelow path t v') legs' := by
    rw [← tasks', List.forall₂_map_left_iff]
    exact List.forall₂_same.2 fun _ _ => rfl
  obtain ⟨legsMid, eachMid, perm⟩ := List.perm_comp_forall₂ perm each
  rw [← tasks, List.forall₂_map_left_iff] at related
  refine ⟨legsMid, Schema.forall₂_comp (related.imp ?_) eachMid, perm⟩
  rintro leg task related leg' rfl
  exact related

/-- Related results are put together to related values. -/
theorem assemble_rearranged (h : v.Rearranged R v')
    (tasks : legs.map Leg.task = tasksBelow path t v)
    (tasks' : legs'.map Leg.task = tasksBelow path t v')
    (each : ∀ leg ∈ legs, ∀ leg' ∈ legs', leg.task.Rearranged R leg'.task →
      leg.result.Rearranged R leg'.result) :
    (assemble t v (legs.map Leg.result)).Rearranged R
      (assemble t v' (legs'.map Leg.result)) := by
  cases h with
  | null => cases t <;> exact .null
  | scalar scalar scalar' related =>
      rw [assemble_of_isScalar scalar, assemble_of_isScalar scalar']
      exact .scalar scalar scalar' related
  | @list items items' length related =>
      have items : List.Forall₂ (Rearranged R) items items' :=
        Schema.forall₂_iff_forall_zip.2 ⟨length, related⟩
      have aligned : List.Forall₂ (Task.Rearranged R) (legs.map Leg.task) (legs'.map Leg.task) := by
        rw [tasks, tasks']
        exact tasksBelow_items items
      rw [List.forall₂_map_left_iff, List.forall₂_map_right_iff] at aligned
      have results : List.Forall₂ (Rearranged R) (legs.map Leg.result) (legs'.map Leg.result) := by
        rw [List.forall₂_map_left_iff, List.forall₂_map_right_iff]
        exact Schema.forall₂_imp_of_mem each aligned
      cases t with
      | list element => exact .of_items results
      | tuple elements =>
          exact .of_items (List.rel_append results (List.forall₂_drop elements.length items))
      | _ => exact .of_items items
  | @dict as bs cs keys related perm =>
      have h : (Value.dict as).Rearranged R (.dict cs) := .dict keys related perm
      cases t with
      | object fields wildcard =>
          obtain ⟨mid, aligned, perm⟩ := exists_legs_rearranged h tasks tasks'
          rw [assemble_entries tasks, assemble_entries tasks']
          refine .of_entries ?_ (perm.map Leg.entry)
          rw [List.forall₂_map_left_iff, List.forall₂_map_right_iff]
          refine Schema.forall₂_imp_of_mem (fun leg mem leg' mem' related => ?_) aligned
          exact ⟨congrArg Path.lastKey related.path,
            each leg mem leg' (perm.mem_iff.1 mem') related⟩
      | _ => exact h

/-! ## Both walks -/

theorem calls_rearranged {mid : List Leg}
    (each : List.Forall₂ (fun leg leg' => ∃ calls,
      List.Forall₂ (fun call call' => call.1.Rearranged R call'.1) leg.calls calls ∧
        calls.Perm leg'.calls) legs mid) :
    ∃ calls, List.Forall₂ (fun call call' => call.1.Rearranged R call'.1)
        (legs.flatMap Leg.calls) calls ∧ calls.Perm (mid.flatMap Leg.calls) := by
  induction each with
  | nil => exact ⟨[], .nil, .nil⟩
  | cons head _ ih =>
      obtain ⟨first, related, perm⟩ := head
      obtain ⟨rest, related', perm'⟩ := ih
      exact ⟨first ++ rest, List.rel_append related related', perm.append perm'⟩

/-- The walk of a rearranged value visits the rearranged nodes in some order, and its result is
rearranged from that of the first walk, as long as the values of such nodes are rearranged
after the visit, too. -/
theorem Walks.rearranged {task task' : Task} (walks : Walks table task w calls)
    (walks' : Walks table task' w' calls') (related : task.Rearranged R task')
    (answers : ∀ call ∈ calls, ∀ call' ∈ calls', call.1.Rearranged R call'.1 →
      (call.2.on call.1.value).Rearranged R (call'.2.on call'.1.value)) :
    w.Rearranged R w' ∧ ∃ mid,
      List.Forall₂ (fun call call' => call.1.Rearranged R call'.1) calls mid ∧
        mid.Perm calls' := by
  induction walks generalizing task' w' calls' with
  | @undeclared path optional v answer =>
      obtain ⟨path', optional', s', v'⟩ := task'
      obtain ⟨rfl, rfl, rfl, values⟩ := related
      cases walks' with
      | undeclared =>
          have node : Node.Rearranged R ⟨path, none, v, ⟨false, false⟩⟩
              ⟨path, none, v', ⟨false, false⟩⟩ := ⟨rfl, rfl, values, rfl⟩
          exact ⟨answers _ (.head _) _ (.head _) node, _, .cons node .nil, .refl _⟩
  | named found _ ih =>
      obtain ⟨path', optional', s', v'⟩ := task'
      obtain ⟨rfl, rfl, rfl, values⟩ := related
      cases walks' with
      | named found' walks' =>
          cases found.symm.trans found'
          exact ih walks' ⟨rfl, rfl, rfl, values⟩ answers
      | visit found' named =>
          cases found.symm.trans found'
          exact absurd rfl (named _ _)
  | @visit path optional s t v answer legs found named tasks _ ih =>
      obtain ⟨path', optional', s', v'⟩ := task'
      obtain ⟨rfl, rfl, rfl, values⟩ := related
      cases walks' with
      | named found' =>
          cases found.symm.trans found'
          exact absurd rfl (named _ _)
      | @visit _ _ _ t' _ answer' legs' found' _ tasks' walks' =>
          cases found.symm.trans found'
          have node : Node.Rearranged R ⟨path, some t, v, ⟨t.nullable, optional⟩⟩
              ⟨path, some t, v', ⟨t.nullable, optional⟩⟩ := ⟨rfl, rfl, values, rfl⟩
          have after := answers _ (.head _) _ (.head _) node
          have below : ∀ leg ∈ legs, ∀ leg' ∈ legs', leg.task.Rearranged R leg'.task → _ :=
            fun leg mem leg' mem' related =>
              ih leg mem (walks' leg' mem') related fun call inside call' inside' =>
                answers call (.tail _ (List.mem_flatMap.2 ⟨leg, mem, inside⟩)) call'
                  (.tail _ (List.mem_flatMap.2 ⟨leg', mem', inside'⟩))
          obtain ⟨mid, aligned, perm⟩ := exists_legs_rearranged after tasks tasks'
          obtain ⟨calls, rest, permCalls⟩ := calls_rearranged
            (Schema.forall₂_imp_of_mem (fun leg mem leg' mem' related =>
              (below leg mem leg' (perm.mem_iff.1 mem') related).2) aligned)
          refine ⟨?_, _ :: calls, .cons node rest, (permCalls.trans (perm.flatMap_right _)).cons _⟩
          exact assemble_rearranged after tasks tasks' fun leg mem leg' mem' related =>
            (below leg mem leg' mem' related).1

end DataShape
