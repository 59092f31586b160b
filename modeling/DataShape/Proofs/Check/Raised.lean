import DataShape.Check.Validate
import DataShape.Proofs.Check.Conforms
import DataShape.Proofs.Walk.Places
import DataShape.Proofs.Walk.Totality

/-!
# The failures of a node

The validator changes nothing, and what it adds at a node depends on the node
alone: `raised` gives these failures without any limit.

A value meets a schema exactly if its node raises nothing and all tasks below the
node are met (`meets_iff_tasksBelow`).  So the nodes of a walk that keeps
everything raise nothing exactly if its task is met (`Walks.met_iff`).  This is an
induction over the transcript and not over the schema, which may lead back to
itself.
-/

namespace DataShape

open Classical in
/-- The failures that the validator finds at a node, for the node itself. -/
noncomputable def raised (table : Table) (node : Node) : List Failure :=
  match node.schema with
  | none => []
  | some (.choice alternatives) =>
      if ∃ s ∈ alternatives, table.Meets s node.value then []
      else [⟨node.path, .noneOfChoices node.value.text (renderChoices alternatives)⟩]
  | some s => (mismatches s node.value).map (Failure.mk node.path)

/-- What a judge answers is right. -/
def Judges (table : Table) (judge : Schema → Value → Report Bool) : Prop :=
  ∀ s v b, (judge s v).result = .ok b → (b = true ↔ table.Meets s v)

variable {table : Table} {judge judge' : Schema → Value → Report Bool} {path : Path}
  {s t : Schema} {v w : Value} {options : Options} {bound limit : Nat}

/-! ## What the validator does at a node -/

/-- A judge that is right tells whether an alternative is met. -/
theorem anyMet_eq_ok (right : Judges table judge) {alternatives : List Schema} {b : Bool}
    (answered : (anyMet judge v alternatives).result = .ok b) :
    b = true ↔ ∃ s ∈ alternatives, table.Meets s v := by
  induction alternatives with
  | nil =>
      cases answered
      simp
  | cons s rest ih =>
      rw [anyMet, Report.result_bind_eq_ok_iff] at answered
      obtain ⟨met, judged, answered⟩ := answered
      rw [List.exists_mem_cons_iff, ← right s v met judged]
      cases met with
      | true =>
          cases answered
          simp
      | false => simpa using ih answered

theorem raised_of_met {alternatives : List Schema} {options : Options}
    (met : ∃ s ∈ alternatives, table.Meets s v) :
    raised table ⟨path, some (.choice alternatives), v, options⟩ = [] :=
  if_pos met

theorem raised_of_not_met {alternatives : List Schema} {options : Options}
    (unmet : ¬ ∃ s ∈ alternatives, table.Meets s v) :
    raised table ⟨path, some (.choice alternatives), v, options⟩ =
      [⟨path, .noneOfChoices v.text (renderChoices alternatives)⟩] :=
  if_neg unmet

/-- The judge has an answer for the choice of a node, if the node has one. -/
def Settles (judge : Schema → Value → Report Bool) (node : Node) : Prop :=
  ∀ alternatives, node.schema = some (.choice alternatives) →
    ∃ b, (anyMet judge node.value alternatives).result = .ok b

/-- Once the choice is settled, the validator keeps the value and adds what the
node raises. -/
theorem gives_validator_iff (right : Judges table judge) {node : Node} {answer : Visit}
    {st st' : List Failure} : (validator judge node).Gives st answer st' ↔
      Settles judge node ∧ answer = .keep ∧ st' = st ++ raised table node := by
  obtain ⟨path, schema, v, options⟩ := node
  cases schema with
  | none => simp [validator, Settles, raised, eq_comm]
  | some s =>
      cases s with
      | choice alternatives =>
          simp only [validator, Run.gives_bind_iff, Run.gives_ofReport_iff]
          constructor
          · rintro ⟨met, _, ⟨judged, rfl⟩, gives⟩
            have decided := anyMet_eq_ok right judged
            refine ⟨fun _ same => by cases same; exact ⟨met, judged⟩, ?_⟩
            cases met with
            | true => simpa [raised_of_met (decided.1 rfl), eq_comm] using gives
            | false =>
                rw [raised_of_not_met fun met => Bool.false_ne_true (decided.2 met)]
                simpa [record, eq_comm, and_comm] using gives
          · rintro ⟨settled, rfl, rfl⟩
            obtain ⟨met, judged⟩ := settled alternatives rfl
            have decided := anyMet_eq_ok right judged
            refine ⟨met, st, ⟨judged, rfl⟩, ?_⟩
            cases met with
            | true => simp [raised_of_met (decided.1 rfl)]
            | false =>
                rw [raised_of_not_met fun met => Bool.false_ne_true (decided.2 met)]
                simp [record]
      | _ => simp [validator, record, Settles, raised, eq_comm, and_comm]

/-- The validator keeps all values and adds up the failures of all nodes. -/
theorem of_answers_validator (right : Judges table judge) {calls : List Call}
    {st st' : List Failure} (answers : Answers (validator judge) st calls st') :
    (∀ call ∈ calls, call.2 = .keep) ∧
      st' = st ++ calls.flatMap fun call => raised table call.1 := by
  induction calls generalizing st with
  | nil => exact ⟨by simp, by simpa using answers.symm⟩
  | cons call calls ih =>
      obtain ⟨mid, gives, answers⟩ := answers
      obtain ⟨-, kept, rfl⟩ := (gives_validator_iff right).1 gives
      obtain ⟨keptAll, rfl⟩ := ih answers
      exact ⟨List.forall_mem_cons.2 ⟨kept, keptAll⟩, by simp⟩

/-! ## A node and what is below it -/

theorem missingIndices_append_unexpectedIndices_eq_nil {i n : Nat} :
    missingIndices i n ++ unexpectedIndices n i = [] ↔ n = i := by
  simp only [missingIndices, unexpectedIndices, List.append_eq_nil_iff, List.map_eq_nil_iff,
    List.range'_eq_nil_iff]
  omega

theorem missingProperties_eq_nil {fields : List (Field Schema)} {entries : Entries Value} :
    missingProperties fields entries = [] ↔
      ∀ f ∈ fields, f.optional = false → f.name ∈ entries.keys := by
  simp only [missingProperties, List.filterMap_eq_nil_iff, ← Entries.has_iff_mem_keys]
  refine forall₂_congr fun f _ => ?_
  cases f.optional <;> simp

theorem unexpectedProperties_eq_nil {fields : List (Field Schema)} {wildcard : Option Schema}
    {entries : Entries Value} : unexpectedProperties fields wildcard entries = [] ↔
      ∀ x ∈ entries, Schema.forKey? fields wildcard x.1 ≠ none := by
  cases wildcard with
  | some s =>
      simp only [unexpectedProperties, true_iff]
      intro x _
      rw [Schema.forKey?]
      cases Field.find? x.1 fields <;> simp
  | none =>
      simp only [unexpectedProperties, List.filterMap_eq_nil_iff]
      refine forall₂_congr fun x _ => ?_
      rw [Schema.forKey?]
      cases Field.find? x.1 fields <;> simp

theorem missingProperties_eq (fields : List (Field Schema)) (entries : Entries Value) :
    missingProperties fields entries =
      (fields.filter fun f => f.optional = false ∧ f.name ∉ entries.keys).map
        fun f => .missingProperty f.name := by
  rw [missingProperties, ← List.filterMap_eq_map, List.filterMap_filter]
  refine List.filterMap_congr fun f _ => ?_
  simp only [← Entries.has_iff_mem_keys]
  cases f.optional <;> cases entries.has f.name <;> simp

theorem unexpectedProperties_eq (fields : List (Field Schema)) (wildcard : Option Schema)
    (entries : Entries Value) : unexpectedProperties fields wildcard entries =
      (entries.keys.filter fun key => wildcard = none ∧ key ∉ fields.map Field.name).map
        .unexpectedProperty := by
  cases wildcard with
  | some s => simp [unexpectedProperties]
  | none =>
      rw [unexpectedProperties, Entries.keys, ← List.filterMap_eq_map, List.filterMap_filter,
        List.filterMap_map]
      refine List.filterMap_congr fun e _ => ?_
      simp only [Function.comp_apply, ← Field.find?_isSome_iff]
      cases Field.find? e.1 fields <;> simp

theorem missingProperties_congr {fields : List (Field Schema)} {entries entries' : Entries Value}
    (same : entries.keys = entries'.keys) :
    missingProperties fields entries = missingProperties fields entries' := by
  rw [missingProperties_eq, missingProperties_eq, same]

theorem unexpectedProperties_congr {fields : List (Field Schema)} {wildcard : Option Schema}
    {entries entries' : Entries Value} (same : entries.keys = entries'.keys) :
    unexpectedProperties fields wildcard entries =
      unexpectedProperties fields wildcard entries' := by
  rw [unexpectedProperties_eq, unexpectedProperties_eq, same]

/-- A node raises the same with other values in the places of its tasks. -/
theorem raised_assemble {results : List Value}
    (length : results.length = (tasksBelow path t v).length) :
    raised table ⟨path, some t, assemble t v results, options⟩ =
      raised table ⟨path, some t, v, options⟩ := by
  cases t with
  | list element =>
      cases v with
      | list items => rfl
      | _ => rfl
  | tuple elements =>
      cases v with
      | list items =>
          have lengths : items.length = (results ++ items.drop elements.length).length :=
            alike_assemble path length
          simp only [raised, assemble, mismatches, lengths]
      | _ => rfl
  | object fields wildcard =>
      cases v with
      | dict entries =>
          have keys : Entries.keys entries = Entries.keys
              (List.zipWith (fun entry result => (entry.1, result)) entries results) :=
            alike_assemble path length
          simp only [raised, assemble, mismatches, missingProperties_congr keys,
            unexpectedProperties_congr keys]
      | _ => rfl
  | _ => rfl

/-- The value of a task meets what is declared for it. -/
def Task.Met (table : Table) (task : Task) : Prop :=
  ∀ s, task.schema = some s → table.Meets s task.value

theorem meets_list_iff (path : Path) {element : Schema} {items : List Value} :
    table.Meets (.list element) (.list items) ↔
      ∀ task ∈ tasksBelow path (.list element) (.list items), task.Met table := by
  constructor
  · intro h task mem s declared
    cases h with
    | list each =>
        obtain ⟨x, indexed, rfl⟩ := List.mem_map.1 mem
        cases declared
        exact each x.1 (List.fst_mem_of_mem_zipIdx indexed)
  · intro each
    refine .list fun v mem => ?_
    obtain ⟨i, lt, rfl⟩ := List.getElem_of_mem mem
    refine each ⟨path.index i, false, some element, items[i]⟩ (List.mem_map.2 ?_) element rfl
    exact ⟨(items[i], i), by simp [List.mk_mem_zipIdx_iff_getElem?], rfl⟩

theorem meets_tuple_iff (path : Path) {elements : List Schema} {items : List Value} :
    table.Meets (.tuple elements) (.list items) ↔ elements.length = items.length ∧
      ∀ task ∈ tasksBelow path (.tuple elements) (.list items), task.Met table := by
  constructor
  · intro h
    cases h with
    | tuple length each =>
        refine ⟨length, fun task mem s declared => ?_⟩
        obtain ⟨x, indexed, rfl⟩ := List.mem_map.1 mem
        cases declared
        exact each x.1 (List.fst_mem_of_mem_zipIdx indexed)
  · rintro ⟨length, each⟩
    refine .tuple length fun x mem => ?_
    obtain ⟨i, lt, rfl⟩ := List.getElem_of_mem mem
    have indexed : ((elements.zip items)[i], i) ∈ (elements.zip items).zipIdx := by
      rw [List.mk_mem_zipIdx_iff_getElem?, List.getElem?_eq_getElem lt]
    exact each _ (List.mem_map.2 ⟨_, indexed, rfl⟩) _ rfl

theorem meets_object_iff (path : Path) {fields : List (Field Schema)}
    {wildcard : Option Schema} {entries : Entries Value} :
    table.Meets (.object fields wildcard) (.dict entries) ↔
      (missingProperties fields entries ++ unexpectedProperties fields wildcard entries = []) ∧
        ∀ task ∈ tasksBelow path (.object fields wildcard) (.dict entries), task.Met table := by
  rw [List.append_eq_nil_iff, missingProperties_eq_nil, unexpectedProperties_eq_nil]
  constructor
  · intro h
    cases h with
    | object required declared each =>
        refine ⟨⟨required, declared⟩, fun task mem s found => ?_⟩
        obtain ⟨x, inside, rfl⟩ := List.mem_map.1 mem
        exact each x inside s found
  · rintro ⟨⟨required, declared⟩, each⟩
    refine .object required declared fun x mem s found => ?_
    exact each _ (List.mem_map.2 ⟨x, mem, rfl⟩) s found

theorem meets_choice_iff {alternatives : List Schema} :
    table.Meets (.choice alternatives) v ↔ ∃ s ∈ alternatives, table.Meets s v := by
  constructor
  · intro h
    cases h with
    | choice mem h => exact ⟨_, mem, h⟩
  · rintro ⟨s, mem, h⟩
    exact .choice mem h

theorem meets_literal_iff {expected : Value} :
    table.Meets (.literal expected) v ↔ v.same expected = true := by
  constructor
  · intro h
    cases h with
    | literal same => exact same
  · exact .literal

theorem meets_primitive_iff {p : Primitive} :
    table.Meets (.primitive p) v ↔ mismatches (.primitive p) v = [] := by
  constructor
  · intro h
    cases h with
    | kind accepts => cases v <;> simp_all [mismatches, Kind.accepts]
    | null nullable => simp [mismatches, nullable]
  · intro none
    cases v with
    | null => exact .null (by simpa [mismatches] using none)
    | _ => exact .kind (by simpa [mismatches] using none)

/-- A value meets a schema exactly if the node raises nothing and all tasks below
it are met. -/
theorem meets_iff_tasksBelow (named : ∀ name body, t ≠ .named name body)
    (reference : ∀ name, t ≠ .reference name) (options : Options) :
    table.Meets t v ↔
      raised table ⟨path, some t, v, options⟩ = [] ∧
        ∀ task ∈ tasksBelow path t v, task.Met table := by
  -- Only the three containers have anything below them, and only for values of their kind.
  cases t with
  | primitive p => simp [meets_primitive_iff, raised, tasksBelow]
  | list element =>
      cases v with
      | list items => simpa [raised, mismatches] using meets_list_iff path
      | _ =>
          refine iff_of_false (fun h => by cases h) ?_
          simp [raised, mismatches]
  | tuple elements =>
      cases v with
      | list items =>
          rw [meets_tuple_iff path, ← missingIndices_append_unexpectedIndices_eq_nil]
          simp [raised, mismatches]
      | _ =>
          refine iff_of_false (fun h => by cases h) ?_
          simp [raised, mismatches]
  | object fields wildcard =>
      cases v with
      | dict entries =>
          rw [meets_object_iff path]
          simp [raised, mismatches]
      | _ =>
          refine iff_of_false (fun h => by cases h) ?_
          simp [raised, mismatches]
  | choice alternatives =>
      rw [meets_choice_iff]
      simp [raised, tasksBelow]
  | named name body => exact absurd rfl (named name body)
  | reference name => exact absurd rfl (reference name)
  | literal expected =>
      rw [meets_literal_iff]
      simp [raised, mismatches, tasksBelow]

theorem meets_named_iff {name : String} {body : Schema} :
    table.Meets (.named name body) v ↔ table.Meets body v := by
  constructor
  · intro h
    cases h with
    | named h => exact h
  · exact .named

/-! ## A walk that keeps everything -/

@[simp] theorem met_some_iff {optional : Bool} :
    Task.Met table ⟨path, optional, some s, v⟩ ↔ table.Meets s v := by
  simp [Task.Met]

/-- A walk that keeps everything gives back the value, and its nodes raise
nothing exactly if its task is met. -/
theorem Walks.met_iff {task : Task} {calls : List Call} (walks : Walks table task w calls)
    (kept : ∀ call ∈ calls, call.2 = .keep) : w = task.value ∧
      ((calls.flatMap fun call => raised table call.1) = [] ↔ task.Met table) := by
  refine ⟨walks.eq_of_kept kept, ?_⟩
  induction walks with
  | undeclared =>
      obtain rfl := kept _ (List.mem_singleton.2 rfl)
      simp [raised, Task.Met]
  | named found _ ih =>
      rw [ih kept, met_some_iff, met_some_iff, Table.meets_resolve_iff found, meets_named_iff]
  | @visit path optional s t v answer legs found named tasks _ ih =>
      obtain ⟨rfl, below⟩ := List.forall_mem_cons.1 kept
      have tasks : legs.map Leg.task = tasksBelow path t v := tasks
      have each : ∀ leg ∈ legs,
          (leg.calls.flatMap fun call => raised table call.1) = [] ↔ leg.task.Met table :=
        fun leg mem => ih leg mem fun call inside =>
          below call (List.mem_flatMap.2 ⟨leg, mem, inside⟩)
      rw [met_some_iff, Table.meets_resolve_iff found,
        meets_iff_tasksBelow named (Table.ne_reference_of_follow found) ⟨t.nullable, optional⟩,
        List.flatMap_cons, List.append_eq_nil_iff]
      refine and_congr_right fun _ => ?_
      rw [← tasks, List.forall_mem_map, List.flatMap_assoc, List.flatMap_eq_nil_iff]
      exact forall₂_congr each

end DataShape
