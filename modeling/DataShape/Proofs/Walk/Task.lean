import DataShape.Proofs.Runs
import DataShape.Proofs.Schema.Part
import DataShape.Walk.Basic

/-!
# The tasks of a walk

What a walk has to do at one place is a *task*: a path, a value, and the schema
declared for the value, if there is one.  `tasksBelow` lists the tasks below a visited
node, and `assemble` puts their results back into the node's value.  The three
shapes with something below them differ only in these two functions.  To go down
is to do all tasks below and to assemble the results (`descend_eq`).

Assembling the old values gives the old value (`assemble_tasksBelow`), and the tasks
below an assembled value are the old ones with the results as their values
(`tasksBelow_assemble`).
-/

namespace DataShape

/-- What a walk has to do at one place. -/
structure Task where
  path : Path
  optional : Bool
  schema : Option Schema
  value : Value

/-- The same task for another value. -/
def Task.put (task : Task) (value : Value) : Task := { task with value := value }

/-- Whether the declaration of a key is optional. -/
def optionalAt (fields : List (Field Schema)) (key : String) : Bool :=
  match Field.find? key fields with
  | some field => field.optional
  | none => false

/-- The tasks below a visited node, in the order in which they are done. -/
def tasksBelow (path : Path) : Schema → Value → List Task
  | .list element, .list items =>
      items.zipIdx.map fun (item, i) => ⟨path.index i, false, some element, item⟩
  | .tuple elements, .list items =>
      (elements.zip items).zipIdx.map fun ((element, item), i) =>
        ⟨path.index i, false, some element, item⟩
  | .object fields wildcard, .dict entries =>
      entries.map fun (key, value) =>
        ⟨path.key key, optionalAt fields key, Schema.forKey? fields wildcard key, value⟩
  | _, _ => []

/-- The value of a node with other values in the places of its tasks. -/
def assemble : Schema → Value → List Value → Value
  | .list _, .list _, results => .list results
  | .tuple elements, .list items, results => .list (results ++ items.drop elements.length)
  | .object _ _, .dict entries, results =>
      .dict (List.zipWith (fun entry result => (entry.1, result)) entries results)
  | _, value, _ => value

/-! ## Going down -/

section Descend

variable {σ : Type}

/-- Do one task, where `step` is what is done if something is declared. -/
def perform (visit : Visitor σ) (step : Path → Bool → Schema → Value → Run σ Value)
    (task : Task) : Run σ Value :=
  match task.schema with
  | some schema => step task.path task.optional schema task.value
  | none => visitUndeclared visit task.path task.value

theorem rebuildItems_eq (step : Path → Value → Run σ Value) (path : Path) (i : Nat)
    (items : List Value) :
    rebuildItems step path i items =
      (items.zipIdx i).mapM fun x => step (path.index x.2) x.1 := by
  induction items generalizing i with
  | nil => rfl
  | cons item items ih => simp [rebuildItems, ih]

theorem rebuildTuple_eq (step : Path → Schema → Value → Run σ Value) (path : Path) (i : Nat)
    (elements : List Schema) (items : List Value) :
    rebuildTuple step path i elements items =
      (· ++ items.drop elements.length) <$>
        ((elements.zip items).zipIdx i).mapM fun x => step (path.index x.2) x.1.1 x.1.2 := by
  induction elements generalizing i items with
  | nil => cases items <;> simp [rebuildTuple]
  | cons element elements ih =>
      cases items with
      | nil => simp [rebuildTuple]
      | cons item items => simp [rebuildTuple, ih]

theorem rebuildEntries_eq (step : String → Path → Value → Run σ Value) (path : Path)
    (entries : List (String × Value)) :
    rebuildEntries step path entries =
      List.zipWith (fun entry result => (entry.1, result)) entries <$>
        entries.mapM fun x => step x.1 (path.key x.1) x.2 := by
  induction entries with
  | nil => simp [rebuildEntries]
  | cons entry entries ih => simp [rebuildEntries, ih]

/-- What an object declares for a key says what is done with the value under it. -/
theorem visitEntry_eq (visit : Visitor σ) (step : Path → Bool → Schema → Value → Run σ Value)
    (fields : List (Field Schema)) (wildcard : Option Schema) (key : String) (path : Path)
    (value : Value) :
    visitEntry visit step fields wildcard key path value =
      perform visit step
        ⟨path, optionalAt fields key, Schema.forKey? fields wildcard key, value⟩ := by
  simp only [visitEntry, perform, optionalAt, Schema.forKey?]
  cases Field.find? key fields with
  | some field => rfl
  | none => cases wildcard <;> rfl

/-- To go down is to do all tasks below and to assemble their results. -/
theorem descend_eq (visit : Visitor σ) (step : Path → Bool → Schema → Value → Run σ Value)
    (path : Path) (s : Schema) (v : Value) :
    descend visit step path s v =
      assemble s v <$> (tasksBelow path s v).mapM (perform visit step) := by
  cases s with
  | list element =>
      cases v with
      | list items =>
          rw [descend, rebuildItems_eq, tasksBelow, List.mapM_map]
          rfl
      | _ => simp [descend, tasksBelow, assemble]
  | tuple elements =>
      cases v with
      | list items =>
          rw [descend, rebuildTuple_eq, tasksBelow, List.mapM_map, Functor.map_map]
          rfl
      | _ => simp [descend, tasksBelow, assemble]
  | object fields wildcard =>
      cases v with
      | dict entries =>
          rw [descend, rebuildEntries_eq, tasksBelow, List.mapM_map, Functor.map_map]
          simp only [visitEntry_eq]
          rfl
      | _ => simp [descend, tasksBelow, assemble]
  | _ => simp [descend, tasksBelow, assemble]

end Descend

/-! ## Taking apart and putting together -/

theorem map_snd_zip_append_drop {α β : Type} (as : List α) (bs : List β) :
    (as.zip bs).map Prod.snd ++ bs.drop as.length = bs := by
  induction as generalizing bs with
  | nil => simp
  | cons a as ih => cases bs <;> simp [ih]

/-- With results in the first places, the items behind these stay where they are. -/
theorem getElem?_append_drop {α : Type} {items results : List α} {n i : Nat}
    (length : results.length = min n items.length) (le : n ≤ i) :
    (results ++ items.drop n)[i]? = items[i]? := by
  rw [List.getElem?_append_right (by omega), List.getElem?_drop]
  rcases Nat.le_total n items.length with inside | outside
  · congr 1
    omega
  · rw [List.getElem?_eq_none (by omega), List.getElem?_eq_none (by omega)]

/-- The values of the tasks below a node give back its value. -/
theorem assemble_tasksBelow (path : Path) (s : Schema) (v : Value) :
    assemble s v ((tasksBelow path s v).map Task.value) = v := by
  cases s with
  | list element =>
      cases v with
      | list items => simp [assemble, tasksBelow, Function.comp_def]
      | _ => rfl
  | tuple elements =>
      cases v with
      | list items =>
          have fst : ((elements.zip items).zipIdx.map fun x => x.1.2) =
              (elements.zip items).map Prod.snd := by
            rw [← List.zipIdx_map_fst 0 ((elements.zip items).map Prod.snd), List.zipIdx_map]
            simp [Function.comp_def]
          simp [assemble, tasksBelow, Function.comp_def, fst, map_snd_zip_append_drop]
      | _ => rfl
  | object fields wildcard =>
      cases v with
      | dict entries => simp [assemble, tasksBelow, Function.comp_def, List.zipWith_map_right]
      | _ => rfl
  | _ => rfl

/-- The tasks below an assembled value are the old ones with the results in them. -/
theorem tasksBelow_assemble (path : Path) (s : Schema) (v : Value) (results : List Value)
    (length : results.length = (tasksBelow path s v).length) :
    tasksBelow path s (assemble s v results) =
      List.zipWith Task.put (tasksBelow path s v) results := by
  cases s with
  | list element =>
      cases v with
      | list items =>
          simp only [tasksBelow, List.length_map, List.length_zipIdx] at length
          apply List.ext_getElem
          · simp [assemble, tasksBelow, length]
          · intro i _ _
            simp [assemble, tasksBelow, Task.put]
      | _ => simp [assemble, tasksBelow]
  | tuple elements =>
      cases v with
      | list items =>
          simp only [tasksBelow, List.length_map, List.length_zipIdx, List.length_zip] at length
          apply List.ext_getElem
          · simp [assemble, tasksBelow, length]
            omega
          · intro i _ bound
            have lt : i < results.length := by
              simp only [List.length_zipWith] at bound
              omega
            simp [assemble, tasksBelow, Task.put, List.getElem_append_left lt]
      | _ => simp [assemble, tasksBelow]
  | object fields wildcard =>
      cases v with
      | dict entries =>
          simp only [tasksBelow, List.length_map] at length
          apply List.ext_getElem
          · simp [assemble, tasksBelow, length]
          · intro i _ _
            simp [assemble, tasksBelow, Task.put]
      | _ => simp [assemble, tasksBelow]
  | _ => simp [tasksBelow]

/-- The results are the values of the tasks below the assembled value. -/
theorem map_value_tasksBelow_assemble (path : Path) (s : Schema) (v : Value) (results : List Value)
    (length : results.length = (tasksBelow path s v).length) :
    (tasksBelow path s (assemble s v results)).map Task.value = results := by
  rw [tasksBelow_assemble path s v results length]
  apply List.ext_getElem
  · simp [length]
  · intro i _ _
    simp [Task.put]

/-! ## Smaller values and known schemas -/

theorem sizeItems_eq_sum (items : List Value) :
    Value.sizeItems items = (items.map Value.size).sum := by
  induction items with
  | nil => rfl
  | cons item items ih => simp [Value.sizeItems, ih]

theorem sizeEntries_eq_sum (entries : List (String × Value)) :
    Value.sizeEntries entries = (entries.map fun x => x.2.size).sum := by
  induction entries with
  | nil => rfl
  | cons entry entries ih => simp [Value.sizeEntries, ih]

theorem size_lt_of_mem_items {items : List Value} {item : Value} (mem : item ∈ items) :
    item.size < (Value.list items).size := by
  have le : item.size ≤ (items.map Value.size).sum :=
    List.le_sum_of_mem (List.mem_map_of_mem mem)
  rw [Value.size, sizeItems_eq_sum]
  omega

theorem size_lt_of_mem_entries {entries : List (String × Value)} {entry : String × Value}
    (mem : entry ∈ entries) : entry.2.size < (Value.dict entries).size := by
  have le : entry.2.size ≤ (entries.map fun x => x.2.size).sum :=
    List.le_sum_of_mem (List.mem_map_of_mem (f := fun x : String × Value => x.2.size) mem)
  rw [Value.size, sizeEntries_eq_sum]
  omega

/-- What an object declares for a key is one of its children. -/
theorem mem_children_of_forKey? {fields : List (Field Schema)} {wildcard : Option Schema}
    {key : String} {s : Schema} (declared : Schema.forKey? fields wildcard key = some s) :
    s ∈ (Schema.object fields wildcard).children := by
  simp only [Schema.children, List.mem_append, List.mem_map, Option.mem_toList]
  rw [Schema.forKey?] at declared
  induction fields with
  | nil => exact .inr declared
  | cons field fields ih =>
      rw [Field.find?] at declared
      by_cases h : field.name = key
      · rw [if_pos h] at declared
        exact .inl ⟨field, by simp, Option.some.inj declared⟩
      · rw [if_neg h] at declared
        rcases ih declared with ⟨f, mem, eq⟩ | eq
        · exact .inl ⟨f, .tail _ mem, eq⟩
        · exact .inr eq

/-- A task below a node has a smaller value, and its schema is a child of that of
the node. -/
theorem of_mem_tasksBelow {path : Path} {s : Schema} {v : Value} {task : Task}
    (mem : task ∈ tasksBelow path s v) :
    task.value.size < v.size ∧ ∀ t, task.schema = some t → t ∈ s.children := by
  cases s with
  | list element =>
      cases v with
      | list items =>
          obtain ⟨⟨item, i⟩, indexed, rfl⟩ := List.mem_map.1 mem
          refine ⟨size_lt_of_mem_items (List.fst_mem_of_mem_zipIdx indexed), fun t declared => ?_⟩
          simp [Schema.children, ← Option.some.inj declared]
      | _ => cases mem
  | tuple elements =>
      cases v with
      | list items =>
          obtain ⟨⟨⟨element, item⟩, i⟩, indexed, rfl⟩ := List.mem_map.1 mem
          obtain ⟨known, present⟩ := List.of_mem_zip (List.fst_mem_of_mem_zipIdx indexed)
          refine ⟨size_lt_of_mem_items present, fun t declared => ?_⟩
          exact Option.some.inj declared ▸ known
      | _ => cases mem
  | object fields wildcard =>
      cases v with
      | dict entries =>
          obtain ⟨⟨key, value⟩, present, rfl⟩ := List.mem_map.1 mem
          exact ⟨size_lt_of_mem_entries present, fun t declared => mem_children_of_forKey? declared⟩
      | _ => cases mem
  | _ => cases mem

/-! ## Leaves -/

/-- No walk goes on below the node. -/
def Node.Leaf (node : Node) : Prop :=
  (∃ p, node.schema = some (.primitive p)) ∨ ∃ ss, node.schema = some (.choice ss)

namespace Node.Leaf

variable {path : Path} {t : Schema} {v : Value} {options : Options}

theorem tasksBelow_eq_nil (leaf : Leaf ⟨path, some t, v, options⟩) (path' : Path) (v' : Value) :
    tasksBelow path' t v' = [] := by
  rcases leaf with ⟨p, leaf⟩ | ⟨ss, leaf⟩
  · cases leaf
    rfl
  · cases leaf
    rfl

theorem assemble_eq (leaf : Leaf ⟨path, some t, v, options⟩) (v' : Value) (results : List Value) :
    assemble t v' results = v' := by
  rcases leaf with ⟨p, leaf⟩ | ⟨ss, leaf⟩
  · cases leaf
    rfl
  · cases leaf
    rfl

theorem exists_schema {node : Node} (leaf : node.Leaf) : ∃ t, node.schema = some t := by
  rcases leaf with ⟨p, leaf⟩ | ⟨ss, leaf⟩
  · exact ⟨_, leaf⟩
  · exact ⟨_, leaf⟩

end Node.Leaf

end DataShape
