import DataShape.Proofs.Check.Validity
import DataShape.Proofs.Names.Acceptance

/-!
# Values without undeclared entries

`prune` drops the entries that nothing describes, at every object that a schema
leads to.  It goes where a walk goes: not into a choice or a literal, not behind the
last element of a tuple, and not into a value of the wrong kind.

Dropping entries changes nothing that is looked for at a node but the undeclared keys
themselves (`raised_declaredPart`).  The nodes of the entries that stay are the same as
before, and those of the others raised nothing.  So the failures of the pruned value
are the failures of the value without the undeclared keys (`failures_prune`).
-/

namespace DataShape

/-! ## Definitions -/

namespace Table

mutual

/-- The value without the entries that nothing describes. -/
def prune (table : Table) : Schema → Value → Value
  | s, .list items =>
      match table.resolve s with
      | .ok (.list element) => .list (pruneItems table element items)
      | .ok (.tuple elements) => .list (pruneElements table elements items)
      | _ => .list items
  | s, .dict entries =>
      match table.resolve s with
      | .ok (.object fields wildcard) => .dict (pruneEntries table fields wildcard entries)
      | _ => .dict entries
  | _, v => v
termination_by structural _ v => v

/-- The items of a list, each of them pruned. -/
def pruneItems (table : Table) (element : Schema) : List Value → List Value
  | [] => []
  | item :: rest => prune table element item :: pruneItems table element rest
termination_by structural items => items

/-- The items of a tuple, those that have an element pruned. -/
def pruneElements (table : Table) : List Schema → List Value → List Value
  | _, [] => []
  | [], items => items
  | element :: elements, item :: rest =>
      prune table element item :: pruneElements table elements rest
termination_by structural _ items => items

/-- The entries that an object describes, each of them pruned. -/
def pruneEntries (table : Table) (fields : List (Field Schema)) (wildcard : Option Schema) :
    List (String × Value) → List (String × Value)
  | [] => []
  | (key, value) :: rest =>
      match Schema.forKey? fields wildcard key with
      | some s => (key, prune table s value) :: pruneEntries table fields wildcard rest
      | none => pruneEntries table fields wildcard rest
termination_by structural entries => entries

end

end Table

/-- The value of a node without the entries that the schema of the node does not
describe. -/
def declaredPart : Schema → Value → Value
  | .object fields wildcard, .dict entries =>
      .dict (entries.filter fun e => (Schema.forKey? fields wildcard e.1).isSome)
  | _, v => v

/-- The value of a task, pruned under what is declared for it. -/
def Task.pruned (table : Table) (task : Task) : Value :=
  match task.schema with
  | some s => table.prune s task.value
  | none => task.value

/-- The value without the entries that nothing in the schema describes. -/
def Schema.prune (s : Schema) (v : Value) : Value := s.table.prune s.strip v

/-- A failure other than an undeclared key. -/
def Failure.fatal (f : Failure) : Bool := !f.mismatch.isUnexpectedProperty

variable {table : Table} {path : Path} {s t : Schema} {v : Value} {options : Options}

/-! ## Pruning node by node -/

theorem map_zipIdx_fst {α β : Type} (f : α → β) (as : List α) :
    (as.zipIdx.map fun x => f x.1) = as.map f := by
  conv_rhs => rw [← List.zipIdx_map_fst 0 as, List.map_map]
  rfl

namespace Table

theorem pruneItems_eq_map (element : Schema) (items : List Value) :
    pruneItems table element items = items.map (table.prune element) := by
  induction items with
  | nil => rfl
  | cons item items ih => simp [pruneItems, ih]

theorem pruneElements_eq (elements : List Schema) (items : List Value) :
    pruneElements table elements items =
      (elements.zip items).map (fun x => table.prune x.1 x.2) ++ items.drop elements.length := by
  induction elements generalizing items with
  | nil => cases items <;> simp [pruneElements]
  | cons element elements ih => cases items <;> simp [pruneElements, ih]

theorem pruneEntries_eq (fields : List (Field Schema)) (wildcard : Option Schema)
    (entries : List (String × Value)) :
    pruneEntries table fields wildcard entries =
      (entries.filter fun e => (Schema.forKey? fields wildcard e.1).isSome).map fun e =>
        (e.1, Task.pruned table
          ⟨.root, false, Schema.forKey? fields wildcard e.1, e.2⟩) := by
  induction entries with
  | nil => rfl
  | cons e entries ih =>
      rw [pruneEntries]
      cases declared : Schema.forKey? fields wildcard e.1 <;>
        simp [declared, ih, Task.pruned]

/-- To prune a value is to drop the undeclared entries of its node and to prune the
tasks below. -/
theorem prune_eq (found : table.resolve s = .ok t) (path : Path) :
    table.prune s v = assemble t (declaredPart t v)
      ((tasksBelow path t (declaredPart t v)).map (Task.pruned table)) := by
  cases v with
  | list items =>
      rw [prune, found]
      cases t with
      | list element =>
          have pruned : ((tasksBelow path (.list element) (.list items)).map (Task.pruned table)) =
              items.map (table.prune element) := by
            rw [tasksBelow, List.map_map]
            exact map_zipIdx_fst (table.prune element) items
          simp [declaredPart, assemble, pruneItems_eq_map, pruned]
      | tuple elements =>
          have pruned : ((tasksBelow path (.tuple elements) (.list items)).map
              (Task.pruned table)) = (elements.zip items).map fun x => table.prune x.1 x.2 := by
            rw [tasksBelow, List.map_map]
            exact map_zipIdx_fst (fun x : Schema × Value => table.prune x.1 x.2) _
          simp [declaredPart, assemble, pruneElements_eq, pruned]
      | _ => rfl
  | dict entries =>
      rw [prune, found]
      cases t with
      | object fields wildcard =>
          simp [declaredPart, assemble, pruneEntries_eq, tasksBelow, Task.pruned,
            List.zipWith_map_right, Function.comp_def]
      | _ => rfl
  | _ => cases t <;> rfl

end Table

/-- The tasks that stay are those for which something is declared. -/
theorem tasksBelow_declaredPart (path : Path) (t : Schema) (v : Value) :
    tasksBelow path t (declaredPart t v) =
      (tasksBelow path t v).filter fun task => task.schema.isSome := by
  cases t with
  | object fields wildcard =>
      cases v with
      | dict entries => simp [declaredPart, tasksBelow, List.filter_map, Function.comp_def]
      | _ => rfl
  | list element => cases v <;> simp [declaredPart, tasksBelow, List.filter_map, Function.comp_def]
  | tuple elements =>
      cases v <;> simp [declaredPart, tasksBelow, List.filter_map, Function.comp_def]
  | _ => rfl

/-- A declared key stays. -/
theorem mem_keys_declared_iff {fields : List (Field Schema)} {wildcard : Option Schema}
    {entries : List (String × Value)} {f : Field Schema} (mem : f ∈ fields) :
    f.name ∈ Entries.keys (entries.filter fun e => (Schema.forKey? fields wildcard e.1).isSome) ↔
      f.name ∈ Entries.keys entries := by
  have declared : (Schema.forKey? fields wildcard f.name).isSome = true := by
    obtain ⟨g, known⟩ := Option.isSome_iff_exists.1
      (Field.find?_isSome_iff.2 (List.mem_map_of_mem (f := Field.name) mem))
    rw [Schema.forKey?, known]
    rfl
  simp only [Entries.keys, List.mem_map, List.mem_filter]
  constructor
  · rintro ⟨e, ⟨present, -⟩, same⟩
    exact ⟨e, present, same⟩
  · rintro ⟨e, present, same⟩
    exact ⟨e, ⟨present, same ▸ declared⟩, same⟩

/-- Without its undeclared entries a value differs as before but for their keys. -/
theorem mismatches_declaredPart (t : Schema) (v : Value) :
    mismatches t (declaredPart t v) =
      (mismatches t v).filter fun m => !m.isUnexpectedProperty := by
  cases t with
  | object fields wildcard =>
      cases v with
      | dict entries =>
          have missing : missingProperties fields
              (entries.filter fun e => (Schema.forKey? fields wildcard e.1).isSome) =
                missingProperties fields entries := by
            rw [missingProperties_eq, missingProperties_eq]
            congr 1
            refine List.filter_congr fun f mem => ?_
            simp only [mem_keys_declared_iff mem]
          have declared : unexpectedProperties fields wildcard
              (entries.filter fun e => (Schema.forKey? fields wildcard e.1).isSome) = [] := by
            rw [unexpectedProperties_eq_nil]
            intro e mem
            exact Option.isSome_iff_ne_none.1 (List.mem_filter.1 mem).2
          have kept : (missingProperties fields entries).filter
              (fun m => !m.isUnexpectedProperty) = missingProperties fields entries := by
            rw [missingProperties_eq, List.filter_eq_self, List.forall_mem_map]
            exact fun f _ => rfl
          have dropped : (unexpectedProperties fields wildcard entries).filter
              (fun m => !m.isUnexpectedProperty) = [] := by
            rw [unexpectedProperties_eq, List.filter_eq_nil_iff, List.forall_mem_map]
            exact fun key _ => Bool.false_ne_true
          rw [declaredPart, mismatches, mismatches, List.filter_append, missing, declared, kept,
            dropped]
      | _ => rfl
  | primitive p => cases v <;> simp only [declaredPart, mismatches] <;> split <;> rfl
  | tuple elements =>
      cases v with
      | list items =>
          change mismatches (.tuple elements) (.list items) = _
          refine (List.filter_eq_self.2 ?_).symm
          rw [mismatches, List.forall_mem_append]
          exact ⟨List.forall_mem_map.2 fun i _ => rfl, List.forall_mem_map.2 fun i _ => rfl⟩
      | _ => rfl
  | literal expected =>
      change mismatches (.literal expected) v = _
      rw [mismatches]
      by_cases same : v.same expected = true
      · rw [if_pos same, List.filter_nil]
      · rw [if_neg same]
        rfl
  | list element => cases v <;> rfl
  | _ => rfl

/-- Without its undeclared entries a node raises the same but for their keys. -/
theorem raised_declaredPart :
    raised table ⟨path, some t, declaredPart t v, options⟩ =
      (raised table ⟨path, some t, v, options⟩).filter Failure.fatal := by
  cases t with
  | choice alternatives =>
      by_cases met : ∃ s ∈ alternatives, table.Meets s v
      · rw [declaredPart, raised_of_met met, List.filter_nil]
        simp
      · rw [declaredPart, raised_of_not_met met]
        rfl
        simp
  | _ =>
      simp only [raised, mismatches_declaredPart, List.filter_map]
      rfl

/-! ## Walking the pruned value -/

/-- What a part of a stripped schema resolves to is a part again. -/
theorem Schema.part_of_resolve {u : Schema} (part : Part t s.strip)
    (found : s.table.resolve t = .ok u) : Part u s.strip :=
  Table.follow_ind (motive := fun u => Part u s.strip)
    (fun _ _ lookup _ => part_of_mem_table (Entries.mem_of_find? lookup)) found part

/-- The calls walk the pruned value of a task, keep everything, and raise what other
calls raise but for the undeclared keys. -/
structure Leg.Prunes (table : Table) (after before : Leg) : Prop where
  task : after.task = before.task
  result : after.result = before.task.pruned table
  walks : Walks table (after.task.put after.result) after.result after.calls
  kept : ∀ call ∈ after.calls, call.2 = .keep
  raised : (after.calls.flatMap fun call => raised table call.1) =
    (before.calls.flatMap fun call => DataShape.raised table call.1).filter Failure.fatal

/-- Nothing is raised by a task for which nothing is declared. -/
theorem Walks.raised_eq_nil {task : Task} {w : Value} {calls : List Call}
    (walks : Walks table task w calls) (undeclared : task.schema = none) :
    (calls.flatMap fun call => raised table call.1) = [] := by
  cases walks with
  | undeclared => rfl
  | named => cases undeclared
  | visit => cases undeclared

/-- If every leg that stays can be pruned, then so can all of them together. -/
theorem exists_legs_prune {legs : List Leg}
    (walks : ∀ leg ∈ legs, Walks table leg.task leg.result leg.calls)
    (each : ∀ leg ∈ legs, ∀ s, leg.task.schema = some s → ∃ after, Leg.Prunes table after leg) :
    ∃ again : List Leg,
      again.map Leg.task = (legs.map Leg.task).filter (fun task => task.schema.isSome) ∧
      (∀ after ∈ again, ∃ before ∈ legs, Leg.Prunes table after before) ∧
      (again.flatMap fun leg => leg.calls.flatMap fun call => raised table call.1) =
        (legs.flatMap fun leg => leg.calls.flatMap fun call => raised table call.1).filter
          Failure.fatal := by
  induction legs with
  | nil => exact ⟨[], rfl, by simp, rfl⟩
  | cons leg legs ih =>
      obtain ⟨first, walks⟩ := List.forall_mem_cons.1 walks
      obtain ⟨again, tasks, prunes, raised⟩ := ih walks fun leg mem => each leg (by simp [mem])
      have prunes : ∀ after ∈ again, ∃ before ∈ leg :: legs, Leg.Prunes table after before := by
        intro after mem
        obtain ⟨before, inside, prune⟩ := prunes after mem
        exact ⟨before, .tail _ inside, prune⟩
      cases declared : leg.task.schema with
      | none =>
          refine ⟨again, ?_, prunes, ?_⟩
          · simp [declared, tasks]
          · rw [List.flatMap_cons, first.raised_eq_nil declared, List.nil_append, raised]
      | some s =>
          obtain ⟨after, prune⟩ := each leg (by simp) s declared
          refine ⟨after :: again, ?_, List.forall_mem_cons.2 ⟨⟨leg, by simp, prune⟩, prunes⟩, ?_⟩
          · simp [declared, tasks, prune.task]
          · rw [List.flatMap_cons, List.flatMap_cons, List.filter_append, prune.raised, raised]

/-- A node can be walked on the pruned value if the tasks that stay below it can. -/
theorem Walks.prune_of_legs (optional : Bool) (options : Options) {again : List Leg}
    (found : table.resolve s = .ok t) (named : ∀ name body, t ≠ .named name body)
    (tasks : again.map Leg.task = tasksBelow path t (declaredPart t v))
    (prunes : ∀ after ∈ again, ∃ before, Leg.Prunes table after before) :
    Walks table ⟨path, optional, some s, table.prune s v⟩ (table.prune s v)
        ((⟨path, some t, table.prune s v, ⟨t.nullable, optional⟩⟩, .keep) ::
          again.flatMap Leg.calls) ∧
      raised table ⟨path, some t, table.prune s v, options⟩ =
        (raised table ⟨path, some t, v, options⟩).filter Failure.fatal := by
  have results : again.map Leg.result =
      (tasksBelow path t (declaredPart t v)).map (Task.pruned table) := by
    rw [← tasks, List.map_map]
    refine List.map_congr_left fun after mem => ?_
    obtain ⟨before, prune⟩ := prunes after mem
    rw [prune.result, Function.comp_apply, prune.task]
  have pruned : assemble t (declaredPart t v) (again.map Leg.result) = table.prune s v := by
    rw [results, Table.prune_eq found path]
  rw [← pruned, raised_assemble (by rw [results, List.length_map])]
  refine ⟨.again_of_legs found named tasks fun after mem => ?_, raised_declaredPart⟩
  obtain ⟨before, prune⟩ := prunes after mem
  exact prune.walks

/-- A task that keeps everything can be walked on the pruned value, where it raises the
same but for the undeclared keys. -/
theorem Walks.prune {task : Task} {w : Value} {calls : List Call}
    (walks : Walks s.table task w calls) (kept : ∀ call ∈ calls, call.2 = .keep)
    (declared : task.schema = some t) (part : Schema.Part t s.strip) :
    ∃ after, Leg.Prunes s.table after ⟨task, w, calls⟩ := by
  induction walks generalizing t with
  | undeclared => cases declared
  | named found =>
      cases declared
      exact absurd (Schema.part_of_resolve part found) Schema.not_part_named_strip
  | @visit path optional c u v answer legs found named tasks walks ih =>
      cases declared
      obtain ⟨rfl, keptBelow⟩ := List.forall_mem_cons.1 kept
      have tasks : legs.map Leg.task = tasksBelow path u v := tasks
      have each : ∀ leg ∈ legs, ∀ d, leg.task.schema = some d →
          ∃ after, Leg.Prunes s.table after leg := by
        intro leg mem d declared
        have below : leg.task ∈ tasksBelow path u v := tasks ▸ List.mem_map_of_mem mem
        have child : Schema.Part d u := .of_mem ((of_mem_tasksBelow below).2 d declared)
        exact ih leg mem
          (fun call inside => keptBelow call (List.mem_flatMap.2 ⟨leg, mem, inside⟩)) declared
          (child.trans (Schema.part_of_resolve part found))
      obtain ⟨again, tasksAgain, prunes, raisedBelow⟩ := exists_legs_prune walks each
      rw [tasks, ← tasksBelow_declaredPart] at tasksAgain
      obtain ⟨walksAgain, raisedHere⟩ := Walks.prune_of_legs optional
        ⟨u.nullable, optional⟩ found named tasksAgain
        fun after mem => (prunes after mem).imp fun _ h => h.2
      refine ⟨⟨⟨path, optional, some c, v⟩, s.table.prune c v,
        (⟨path, some u, s.table.prune c v, ⟨u.nullable, optional⟩⟩, .keep) ::
          again.flatMap Leg.calls⟩, rfl, rfl, walksAgain, ?_, ?_⟩
      · refine List.forall_mem_cons.2 ⟨rfl, fun call mem => ?_⟩
        obtain ⟨after, inside, mem⟩ := List.mem_flatMap.1 mem
        obtain ⟨before, -, prune⟩ := prunes after inside
        exact prune.kept call mem
      · rw [List.flatMap_cons, List.flatMap_cons, List.filter_append, raisedHere,
          List.flatMap_assoc, List.flatMap_assoc, raisedBelow]

/-- The failures of the pruned value are the failures of the value without the
undeclared keys. -/
theorem Schema.failures_prune {r : Resolved} (accepted : s.resolve.result = .ok r)
    {found : List Failure} (collected : (r.failures v).result = .ok found) :
    (r.failures (s.prune v)).result = .ok (found.filter Failure.fatal) := by
  obtain ⟨-, table, root⟩ := resolve_eq_ok_iff.1 accepted
  obtain ⟨calls, walks, kept, failures⟩ := r.exists_failures v
  obtain ⟨calls', walks', kept', again⟩ := r.exists_failures (s.prune v)
  cases failures.symm.trans collected
  rw [Resolved.task, table, root] at walks walks'
  obtain ⟨⟨task, w, calls''⟩, rfl, rfl, walks'', kept'', raised⟩ := walks.prune kept rfl .self
  rw [again, table, walks'.unique_of_kept kept' walks'' kept'']
  exact congrArg Except.ok raised

end DataShape
