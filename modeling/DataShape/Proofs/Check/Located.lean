import DataShape.Proofs.Check.Local
import DataShape.Proofs.Check.Prune
import DataShape.Proofs.Path
import DataShape.Proofs.Schema.RoundTrip
import DataShape.Proofs.Walk.Places

/-!
# A path identifies one node

The texts of two paths in a value are different if no key in it is empty or holds a separator.
No place of a value is visited twice, so no two visits of a walk tell the same text.

A node raises each of its mismatches one time, unless an object schema declares a key twice
(`Local.nodup`).  What is parsed does not, and neither does what is left of it after its names are
taken out.  So no two failures of a value under a parsed schema are equal.
-/

namespace DataShape

/-! ## Definitions -/

/-- No key in the value is empty or holds a separator. -/
def Value.CleanKeys : Value → Prop :=
  Each fun u => ∀ es, u = .dict es → ∀ key ∈ Entries.keys es, Path.CleanKey key

/-- No key is declared twice, if this is an object schema. -/
def Schema.DistinctNames (s : Schema) : Prop :=
  ∀ fields wildcard, s = .object fields wildcard → (fields.map Field.name).Nodup

/-- What a failure tells: the text of its path, and how the value differs there. -/
def Failure.told (f : Failure) : String × Mismatch := (f.path.text, f.mismatch)

open Value (At)

variable {table : Table} {s t : Schema} {v w : Value} {p q : Path} {task : Task}
  {calls : List Call} {own : List Mismatch}

/-! ## Paths in values -/

section

variable {items : List Value} {entries : List (String × Value)}

theorem Value.cleanKeys_list_iff : (list items).CleanKeys ↔ ∀ v ∈ items, v.CleanKeys := by
  simp [CleanKeys, each_iff (v := .list items), children]

theorem Value.cleanKeys_dict_iff : (dict entries).CleanKeys ↔
    (∀ key ∈ Entries.keys entries, Path.CleanKey key) ∧ ∀ e ∈ entries, e.2.CleanKeys := by
  simp only [CleanKeys, each_iff (v := .dict entries), children, List.forall_mem_map,
    dict.injEq, forall_eq']

/-- There are no keys in a scalar. -/
theorem Value.cleanKeys_of_isScalar (scalar : v.isScalar = true) : v.CleanKeys := by
  rw [CleanKeys, each_iff]
  cases v with
  | null | list | dict => cases scalar
  | _ => simp [children]

end

/-- What holds of every part of a value holds of every part of what stands in it. -/
theorem Value.At.each {P : Value → Prop} {u : Value} (stands : At p v q u) (each : v.Each P) :
    u.Each P := by
  induction stands with
  | here => exact each
  | inside mem _ ih =>
      exact ih ((Value.each_iff.1 each).2 _ (Value.mem_children_of_mem_places mem))

/-- The way to a place in a value with clean keys is clean. -/
theorem Value.At.clean {u : Value} (stands : At p v q u) (clean : p.Clean) (keys : v.CleanKeys) :
    q.Clean := by
  induction stands with
  | here => exact clean
  | @inside p q r v c u mem _ ih =>
      obtain ⟨here, below⟩ := Value.each_iff.1 keys
      refine ih ?_ (below c (Value.mem_children_of_mem_places mem))
      cases v with
      | list items =>
          obtain ⟨i, -, rfl⟩ := Value.mem_places_list_iff.1 mem
          exact clean
      | dict entries =>
          obtain ⟨key, stored, rfl⟩ := Value.mem_places_dict_iff.1 mem
          exact ⟨clean, here entries rfl key (List.mem_map_of_mem (f := Prod.fst) stored)⟩
      | _ => cases mem

/-- No two visits of a walk that replaces scalars at most tell the same text. -/
theorem Walks.nodup_texts (swapped : ∀ node u, (node, .replace u) ∈ calls → Swapped node u)
    (walks : Walks table task w calls) (start : task.path.Clean) (distinct : task.value.Distinct)
    (keys : task.value.CleanKeys) : (calls.map fun call => call.1.path.text).Nodup := by
  have nodup := walks.nodup_paths swapped distinct
  have clean : ∀ call ∈ calls, call.1.path.Clean := fun call mem =>
    (walks.at_old swapped call mem).clean start keys
  have texts := nodup.map_on (f := Path.text) fun p mem q mem' same => by
    obtain ⟨call, inside, rfl⟩ := List.mem_map.1 mem
    obtain ⟨call', inside', rfl⟩ := List.mem_map.1 mem'
    exact (clean call inside).eq_of_text_eq (clean call' inside') same
  rwa [List.map_map] at texts

/-- Where everything is kept, nothing is replaced. -/
theorem swapped_of_kept (kept : ∀ call ∈ calls, call.2 = .keep) (node : Node) (u : Value)
    (mem : (node, .replace u) ∈ calls) : Swapped node u := by
  cases kept _ mem

/-! ## Names of fields -/

/-- No object in a parsed schema declares a key twice. -/
theorem Schema.distinctNames_of_parse {d : Json} (parsed : parse d = .ok s) :
    s.Throughout DistinctNames := by
  rintro _ part fields wildcard rfl
  obtain ⟨d, denotes⟩ := (denotes_of_parse parsed).part part
  cases denotes with
  | object _ _ _ _ names => exact names

theorem Schema.DistinctNames.strip (names : s.Throughout DistinctNames) :
    s.strip.DistinctNames := by
  intro fields wildcard eq
  induction s with
  | named name body ih => exact ih (names.child (.head _)) eq
  | object fields' wildcard' =>
      cases eq
      rw [stripFields_eq_map, List.map_map]
      exact names _ .self _ _ rfl
  | _ => cases eq

/-- Neither does any object of the schema without its names. -/
theorem Schema.distinctNames_strip (names : s.Throughout DistinctNames) :
    s.strip.Throughout DistinctNames := by
  intro t part
  obtain ⟨u, inside, rfl⟩ := part.exists_of_strip
  exact .strip fun t part => names t (part.trans inside)

/-- A walk under a stripped schema meets parts of it. -/
theorem Walks.part_strip (walks : Walks s.table task w calls)
    (start : ∀ t, task.schema = some t → Schema.Part t s.strip) :
    ∀ call ∈ calls, ∀ t, call.1.schema = some t → Schema.Part t s.strip := by
  induction walks with
  | undeclared => simp
  | named found _ ih =>
      refine ih fun t eq => ?_
      obtain rfl := Option.some.inj eq
      exact absurd (Schema.part_of_resolve (start _ rfl) found) Schema.not_part_named_strip
  | @visit path optional c u v answer legs found _ tasks _ ih =>
      have part := Schema.part_of_resolve (start _ rfl) found
      refine List.forall_mem_cons.2 ⟨fun t eq => Option.some.inj eq ▸ part, fun call mem => ?_⟩
      obtain ⟨leg, inside, mem⟩ := List.mem_flatMap.1 mem
      have below : leg.task ∈ tasksBelow path u (answer.on v) :=
        tasks ▸ List.mem_map_of_mem inside
      exact ih leg inside (fun t declared =>
        (Schema.Part.of_mem ((of_mem_tasksBelow below).2 t declared)).trans part) call mem

/-! ## The mismatches of a node -/

theorem nodup_map_append_map {α β γ : Type} {as : List α} {bs : List β} {f : α → γ} {g : β → γ}
    (first : (as.map f).Nodup) (second : (bs.map g).Nodup) (apart : ∀ a b, f a ≠ g b) :
    (as.map f ++ bs.map g).Nodup :=
  List.nodup_append.2 ⟨first, second, List.forall_mem_map.2 fun a _ =>
    List.forall_mem_map.2 fun b _ => apart a b⟩

/-- A node differs from what describes it in each way one time. -/
theorem Local.nodup {schema : Option Schema} (found : Local table schema v own)
    (names : ∀ t, schema = some t → t.DistinctNames) (distinct : v.Distinct) : own.Nodup := by
  -- Only a tuple and an object can differ in several ways, and these are of two sorts.
  cases found with
  | tuple ascending _ ascending' _ =>
      refine nodup_map_append_map ?_ ?_ fun _ _ => by simp
      · exact List.Nodup.map (fun _ _ same => Mismatch.missingIndex.inj same)
          (ascending.imp Nat.ne_of_lt)
      · exact List.Nodup.map (fun _ _ same => Mismatch.unexpectedIndex.inj same)
          (ascending'.imp Nat.ne_of_lt)
  | @object fields wildcard entries =>
      refine nodup_map_append_map ?_ ?_ fun _ _ => by simp
      · have once : ((fields.filter fun f =>
            f.optional = false ∧ f.name ∉ Entries.keys entries).map Field.name).Nodup :=
          (names _ rfl fields wildcard rfl).sublist (List.filter_sublist.map _)
        have told := once.map fun _ _ same => Mismatch.missingProperty.inj same
        rwa [List.map_map] at told
      · have once : (Entries.keys entries).Nodup := (Value.distinct_dict_iff.1 distinct).1
        exact (once.filter _).map fun _ _ same => Mismatch.unexpectedProperty.inj same
  | _ => simp

/-- Nodes at paths with different texts have different failures. -/
theorem nodup_told (texts : (calls.map fun call => call.1.path.text).Nodup)
    (each : ∀ call ∈ calls, ∃ own, Local table call.1.schema call.1.value own ∧ own.Nodup) :
    ((calls.flatMap fun call => raised table call.1).map Failure.told).Nodup := by
  have at_path : ∀ call ∈ calls, ∀ told ∈ (raised table call.1).map Failure.told,
      told.1 = call.1.path.text := by
    intro call mem
    obtain ⟨own, found, -⟩ := each call mem
    rw [found.raised_eq, List.map_map]
    exact List.forall_mem_map.2 fun _ _ => rfl
  rw [List.map_flatMap, List.nodup_flatMap]
  refine ⟨fun call mem => ?_, (List.pairwise_map.1 texts).imp_of_mem ?_⟩
  · obtain ⟨own, found, once⟩ := each call mem
    rw [found.raised_eq, List.map_map]
    exact once.map fun _ _ same => (Prod.mk.inj same).2
  · intro call call' mem mem' ne told first second
    exact ne ((at_path call mem told first).symm.trans (at_path call' mem' told second))

/-! ## Visits and failures -/

namespace Resolved

/-- A path identifies one node.  A visitor that always keeps the value visits no two nodes at paths
with the same text, if no key in the value is empty or holds a separator.  If the schema was
parsed, then no two failures tell the same mismatch at the same path. -/
theorem path_identifies_node (r : Resolved) (v : Value) (distinct : v.Distinct)
    (keys : v.CleanKeys) :
    (∀ (σ : Type) (visit : Visitor σ), (∀ node st, ∃ st', (visit node).Gives st .keep st') →
      ∀ st, ∃ st' calls,
        (∀ limit, walkLimit r.table r.root v ≤ limit →
          (walk r.table (traced visit) limit r.root v).Gives (st, []) v (st', calls)) ∧
        (calls.map fun call => call.1.path.text).Nodup) ∧
    ∀ d s, Schema.parse d = .ok s → s.resolve.result = .ok r →
      ∃ found, (s.failures v).result = .ok found ∧ (r.failures v).result = .ok found ∧
        (found.map Failure.told).Nodup := by
  refine ⟨fun σ visit keeps st => ?_, fun d s parsed accepted => ?_⟩
  · have tame : ∀ node, TameAt (traced visit) node := fun node => TameAt.traced fun st => by
      obtain ⟨st', gives⟩ := keeps node st
      exact ⟨.keep, st', gives, Nat.le_refl _⟩
    obtain ⟨w, ⟨st', calls⟩, gives⟩ := r.exists_gives_walk (v := v) tame (st, [])
    obtain ⟨_, walks, answers⟩ := Walks.of_gives (gives _ (Nat.le_refl _))
    obtain ⟨answers, rfl⟩ := answers_traced_iff.1 answers
    have kept : ∀ call ∈ calls, call.2 = .keep := by
      intro call mem
      obtain ⟨before, _, asked⟩ := exists_gives_of_answers answers mem
      obtain ⟨_, keep⟩ := keeps call.1 before
      exact (asked.unique keep).1
    obtain rfl := walks.eq_of_kept kept
    exact ⟨st', calls, gives, walks.nodup_texts (swapped_of_kept kept) rfl distinct keys⟩
  · obtain ⟨calls, walks, kept, collected⟩ := r.exists_failures v
    refine ⟨_, s.failures_eq_ok accepted collected, collected, ?_⟩
    refine nodup_told (walks.nodup_texts (swapped_of_kept kept) rfl distinct keys)
      fun call mem => ?_
    have visited := Visits.of_walks walks kept
    obtain ⟨own, found⟩ := call.1.exists_local r.table fun t declared => by
      obtain ⟨reference, named, -⟩ := visited.schema_of_mem (List.mem_map_of_mem mem) declared
      exact ⟨reference, named⟩
    refine ⟨own, found, found.nodup (fun t declared => ?_) ?_⟩
    · obtain ⟨-, table, root⟩ := Schema.resolve_eq_ok_iff.1 accepted
      rw [Resolved.task, table, root] at walks
      have part := walks.part_strip (fun t eq => Option.some.inj eq ▸ .self) call mem t declared
      exact Schema.distinctNames_strip (Schema.distinctNames_of_parse parsed) t part
    · exact (walks.at_old (swapped_of_kept kept) call mem).each distinct

/-! ### Rows with brackets in their keys -/

/-- The definition of rows with a number each, whose key ends in a bracket. -/
def rowsDefinition : Json :=
  .object [("rows", .array [.object [("0]", .string "int")]])]

/-- The schema of the rows. -/
def rowsType : Resolved where
  table := []
  root := .object [⟨"rows", false, .list (.object [⟨"0]", false, .primitive ⟨.int, false⟩⟩] none)⟩]
    none
  verified := rfl

/-- One row with a text for its number, and one with another key. -/
def rows : Value :=
  .dict [("rows", .list [.dict [("0]", .str "one")], .dict [("1", .int 1)]])]

/-- The nodes and the failures of the rows are at different paths. -/
theorem rows_located : rows.Distinct ∧ rows.CleanKeys ∧
    (∃ st' calls,
      (walk rowsType.table (traced keeper) (walkLimit rowsType.table rowsType.root rows)
        rowsType.root rows).Gives ((), []) rows (st', calls) ∧
      (calls.map fun call => call.1.path.text).Nodup ∧
      calls.map (fun call => call.1.path.text) =
        ["", "rows", "rows[0]", "rows[0].0]", "rows[1]", "rows[1].1"]) ∧
    ∃ found, (rowsType.root.failures rows).result = .ok found ∧ (found.map Failure.told).Nodup ∧
      found.map Failure.told =
        [("rows[0].0]", .typeMismatch "int" "str"), ("rows[1]", .missingProperty "0]"),
          ("rows[1]", .unexpectedProperty "1")] := by
  have distinct : rows.Distinct := by
    have scalars : (Value.str "one").Distinct ∧ (Value.int 1).Distinct :=
      ⟨Value.distinct_of_isScalar rfl, Value.distinct_of_isScalar rfl⟩
    simp [rows, Value.distinct_dict_iff, Value.distinct_list_iff, Entries.keys, scalars]
  have keys : rows.CleanKeys := by
    have clean : Path.CleanKey "rows" ∧ Path.CleanKey "0]" ∧ Path.CleanKey "1" := by
      decide +kernel
    have scalars : (Value.str "one").CleanKeys ∧ (Value.int 1).CleanKeys :=
      ⟨Value.cleanKeys_of_isScalar rfl, Value.cleanKeys_of_isScalar rfl⟩
    simp [rows, Value.cleanKeys_dict_iff, Value.cleanKeys_list_iff, Entries.keys, clean, scalars]
  have parsed : Schema.parse rowsDefinition = .ok rowsType.root := rfl
  have accepted : rowsType.root.resolve.result = .ok rowsType := rfl
  have keeps : ∀ node st, ∃ st', (keeper node).Gives st .keep st' := fun _ _ => ⟨(), rfl, rfl⟩
  obtain ⟨visits, failures⟩ := path_identifies_node rowsType rows distinct keys
  obtain ⟨st', calls, gives, texts⟩ := visits Unit keeper keeps ()
  obtain ⟨found, collected, -, told⟩ := failures rowsDefinition rowsType.root parsed accepted
  refine ⟨distinct, keys, ⟨st', calls, gives _ (Nat.le_refl _), texts, ?_⟩,
    found, collected, told, ?_⟩
  · obtain rfl : _ = calls := congrArg Prod.snd (gives _ (Nat.le_refl _)).2
    decide +kernel
  · cases collected
    decide +kernel

end Resolved

end DataShape
