import DataShape.Proofs.Names.Resolution
import DataShape.Proofs.Walk.Recording
import DataShape.Walk.Script

/-!
# What a walk visits

A walk whose visitor keeps every value is a listing of nodes in pre-order.
`Visits` says which listing, without a walk: the node itself, with its schema
unwrapped, and then what each task below the node visits, from left to right.  A
schema is unwrapped by going through references and named types until something
else is found, in whatever order they come.

A keeping walk visits exactly this listing, and rebuilds the value that it was
given (`walk_visits_preorder`).  The listing depends on the table, the schema and
the value alone, and there is only one (`Visits.unique`).
-/

namespace DataShape

/-! ## Unwrapping -/

namespace Table

variable {table : Table} {s t t' u : Schema}

/-- References and named types lead from the first schema to the second, which is
neither. -/
inductive Unwraps (table : Table) : Schema → Schema → Prop
  | here {t : Schema} : (∀ name, t ≠ .reference name) → (∀ name body, t ≠ .named name body) →
      Unwraps table t t
  | reference {name : String} {body t : Schema} : Entries.find? name table = some body →
      Unwraps table body t → Unwraps table (.reference name) t
  | named {name : String} {body t : Schema} : Unwraps table body t →
      Unwraps table (.named name body) t

namespace Unwraps

theorem ne_reference (h : table.Unwraps s t) (name : String) : t ≠ .reference name := by
  induction h with
  | here reference _ => exact reference name
  | reference _ _ ih => exact ih
  | named _ ih => exact ih

theorem ne_named (h : table.Unwraps s t) (name : String) (body : Schema) :
    t ≠ .named name body := by
  induction h with
  | here _ named => exact named name body
  | reference _ _ ih => exact ih
  | named _ ih => exact ih

/-- A schema is unwrapped in one way. -/
theorem unique (h : table.Unwraps s t) (h' : table.Unwraps s t') : t = t' := by
  induction h with
  | here reference named =>
      cases h' with
      | here => rfl
      | reference => exact absurd rfl (reference _)
      | named => exact absurd rfl (named _ _)
  | reference found _ ih =>
      cases h' with
      | here reference _ => exact absurd rfl (reference _)
      | reference found' h' =>
          cases found.symm.trans found'
          exact ih h'
  | named _ ih =>
      cases h' with
      | here _ named => exact absurd rfl (named _ _)
      | named h' => exact ih h'

/-- What is found through references is unwrapped to the same schema. -/
theorem of_follow {limit : Nat} (found : table.follow limit s = .ok u)
    (h : table.Unwraps u t) : table.Unwraps s t := by
  have back : ∀ t, table.Unwraps u t → table.Unwraps s t := by
    refine Table.follow_ind (motive := fun u => ∀ t, table.Unwraps u t → table.Unwraps s t)
      (fun name body lookup ih t h => ih t (.reference lookup h)) found fun _ h => h
  exact back t h

/-- A schema that resolves to something other than a named type is unwrapped. -/
theorem of_resolve (found : table.resolve s = .ok t)
    (named : ∀ name body, t ≠ .named name body) : table.Unwraps s t :=
  of_follow found (.here (Table.ne_reference_of_follow found) named)

end Unwraps

end Table

/-! ## The listing of a task -/

/-- The nodes that a task leads to, parents before children. -/
inductive Visits (table : Table) : Task → List Node → Prop
  /-- Nothing is declared, and nothing below the value is visited. -/
  | undeclared {path : Path} {optional : Bool} {v : Value} :
      Visits table ⟨path, optional, none, v⟩ [⟨path, none, v, ⟨false, false⟩⟩]
  /-- The node of an unwrapped schema comes before what the tasks below it visit. -/
  | node {path : Path} {optional : Bool} {s t : Schema} {v : Value}
      {below : List (Task × List Node)} :
      table.Unwraps s t → below.map Prod.fst = tasksBelow path t v →
      (∀ x ∈ below, Visits table x.1 x.2) →
      Visits table ⟨path, optional, some s, v⟩
        (⟨path, some t, v, ⟨t.nullable, optional⟩⟩ :: below.flatMap Prod.snd)

namespace Visits

variable {table : Table} {task : Task} {nodes nodes' : List Node}

/-- A task for another schema that is unwrapped through the first one. -/
theorem of_unwraps {path : Path} {optional : Bool} {s u : Schema} {v : Value}
    (back : ∀ t, table.Unwraps u t → table.Unwraps s t)
    (h : Visits table ⟨path, optional, some u, v⟩ nodes) :
    Visits table ⟨path, optional, some s, v⟩ nodes := by
  cases h with
  | node unwraps tasks each => exact .node (back _ unwraps) tasks each

/-- Listings of the same tasks are the same if each of them is the only one. -/
theorem below_unique {below below' : List (Task × List Node)}
    (each : ∀ x ∈ below, ∀ nodes, Visits table x.1 nodes → x.2 = nodes)
    (tasks : below.map Prod.fst = below'.map Prod.fst)
    (visits : ∀ x ∈ below', Visits table x.1 x.2) : below = below' := by
  induction below generalizing below' with
  | nil => exact (List.map_eq_nil_iff.1 tasks.symm).symm
  | cons x below ih =>
      cases below' with
      | nil => cases tasks
      | cons y below' =>
          obtain ⟨same, tasks⟩ := List.cons.inj tasks
          obtain ⟨first, each⟩ := List.forall_mem_cons.1 each
          obtain ⟨visit, visits⟩ := List.forall_mem_cons.1 visits
          rw [ih each tasks visits, Prod.ext same (first y.2 (same ▸ visit))]

/-- A task has one listing. -/
theorem unique (h : Visits table task nodes) (h' : Visits table task nodes') :
    nodes = nodes' := by
  induction h generalizing nodes' with
  | undeclared =>
      cases h' with
      | undeclared => rfl
  | node unwraps tasks _ ih =>
      cases h' with
      | node unwraps' tasks' each' =>
          obtain rfl := unwraps.unique unwraps'
          rw [below_unique (fun x mem _ => ih x mem) (tasks.trans tasks'.symm) each']

/-- Neither a reference nor a named type is visited, and what is nullable is a
nullable primitive. -/
theorem schema_of_mem (h : Visits table task nodes) {node : Node} (mem : node ∈ nodes)
    {t : Schema} (declared : node.schema = some t) :
    (∀ name, t ≠ .reference name) ∧ (∀ name body, t ≠ .named name body) ∧
      (node.options.nullable = true ↔ ∃ kind, t = .primitive ⟨kind, true⟩) := by
  induction h with
  | undeclared =>
      obtain rfl := List.mem_singleton.1 mem
      cases declared
  | @node path optional s u v below unwraps _ _ ih =>
      rcases List.mem_cons.1 mem with rfl | mem
      · obtain rfl := Option.some.inj declared
        refine ⟨unwraps.ne_reference, unwraps.ne_named, ?_⟩
        cases u with
        | primitive p => cases p; simp [Schema.nullable]
        | _ => simp [Schema.nullable]
      · obtain ⟨x, inside, mem⟩ := List.mem_flatMap.1 mem
        exact ih x inside mem

/-- A transcript in which every value is kept is the listing of its task. -/
theorem of_walks {w : Value} {calls : List Call} (walks : Walks table task w calls)
    (kept : ∀ call ∈ calls, call.2 = .keep) : Visits table task (calls.map Prod.fst) := by
  induction walks with
  | undeclared => exact .undeclared
  | named found _ ih =>
      exact (ih kept).of_unwraps fun t unwraps => .of_follow found (.named unwraps)
  | @visit path optional s t v answer legs found named tasks _ ih =>
      obtain ⟨rfl, keptBelow⟩ := List.forall_mem_cons.1 kept
      have below : ∀ leg ∈ legs, Visits table leg.task (leg.calls.map Prod.fst) :=
        fun leg mem => ih leg mem fun call inside =>
          keptBelow call (List.mem_flatMap.2 ⟨leg, mem, inside⟩)
      have visits : Visits table ⟨path, optional, some s, v⟩
          (⟨path, some t, v, ⟨t.nullable, optional⟩⟩ ::
            (legs.map fun leg => (leg.task, leg.calls.map Prod.fst)).flatMap Prod.snd) := by
        refine .node (.of_resolve found named) ?_ (List.forall_mem_map.2 below)
        rw [List.map_map]
        exact tasks
      simpa [List.map_flatMap, List.flatMap_map] using visits

end Visits

/-! ## Walks that record their calls -/

section Traced

variable {σ : Type} {table : Table} {visit : Visitor σ}

/-- To record the calls does not change what a walk gives. -/
theorem exists_gives_walk_traced {limit : Nat} {s : Schema} {v w : Value} {st st' : σ}
    (gives : (walk table visit limit s v).Gives st w st') :
    ∃ calls, (walk table (traced visit) limit s v).Gives (st, []) w (st', calls) := by
  have each : ∀ node,
      Run.Records (fun _ => false) (fun _ => none) (traced visit node) (visit node) := by
    intro node
    refine records_traced fun st => ?_
    cases (visit node st).1.result <;> simp
  obtain ⟨same, calls, ends, -⟩ :=
    records_walkAt (fun _ _ => rfl) each limit .root false s v st []
  exact ⟨calls, (congrArg Report.result same).trans gives.1, gives.2 ▸ ends⟩

/-- A visitor that keeps every value whenever it answers. -/
def Keeps (visit : Visitor σ) : Prop :=
  ∀ node st answer st', (visit node).Gives st answer st' → answer = .keep

/-- A walk that ends gives back its value if the visitor keeps every value, and it
calls the visitor for exactly the nodes of the listing, in this order. -/
theorem walk_visits_preorder (keeps : Keeps visit) {limit : Nat} {s : Schema} {v w : Value}
    {st st' : σ} (ends : (walk table visit limit s v).Gives st w st') :
    w = v ∧ ∃ nodes,
      (walk table (traced visit) limit s v).Gives (st, []) v
        (st', nodes.map fun node => (node, .keep)) ∧
      (∀ nodes', Visits table ⟨.root, false, some s, v⟩ nodes' ↔ nodes' = nodes) ∧
      ∀ node ∈ nodes, ∀ t, node.schema = some t →
        (∀ name, t ≠ .reference name) ∧ (∀ name body, t ≠ .named name body) ∧
          (node.options.nullable = true ↔ ∃ kind, t = .primitive ⟨kind, true⟩) := by
  obtain ⟨calls, traced⟩ := exists_gives_walk_traced ends
  obtain ⟨_, walks, answers⟩ := Walks.of_gives traced
  obtain ⟨answers, eq⟩ := answers_traced_iff.1 answers
  obtain rfl : calls = _ := eq
  have kept : ∀ call ∈ calls, call.2 = .keep := by
    intro call mem
    obtain ⟨_, _, asked⟩ := exists_gives_of_answers answers mem
    exact keeps _ _ _ _ asked
  obtain rfl := walks.eq_of_kept kept
  have visits := Visits.of_walks walks kept
  have recorded : calls = (calls.map Prod.fst).map fun node => (node, .keep) := by
    rw [List.map_map]
    exact (List.map_id _).symm.trans
      (List.map_congr_left fun call mem => Prod.ext rfl (kept call mem))
  refine ⟨rfl, calls.map Prod.fst, recorded ▸ traced, fun nodes' => ⟨?_, ?_⟩, ?_⟩
  · exact fun visits' => visits'.unique visits
  · rintro rfl
    exact visits
  · exact fun node mem t declared => visits.schema_of_mem mem declared

end Traced

/-! ### Names around names -/

/-- The body of the first name is a named type around a reference to the second
name, whose body leads back to the first. -/
def alternating : Table :=
  [("node", .named "inner" (.reference "object")),
    ("object", .object [⟨"next", true, .reference "node"⟩] none)]

/-- Two dictionaries below each other, with an undeclared key in the second. -/
def alternatingValue : Value := .dict [("next", .dict [("x", .int 1)])]

/-- What a walk from the first name visits: two objects and the undeclared entry. -/
def alternatingNodes : List Node :=
  let object := Schema.object [⟨"next", true, .reference "node"⟩] none
  [⟨.root, some object, alternatingValue, ⟨false, false⟩⟩,
    ⟨Path.root.key "next", some object, .dict [("x", .int 1)], ⟨false, true⟩⟩,
    ⟨(Path.root.key "next").key "x", none, .int 1, ⟨false, false⟩⟩]

theorem keeps_scripted_nil : Keeps (scripted []) := by
  intro node st answer st' gives
  obtain ⟨-, kept⟩ : st' = st ++ [node] ∧ answer = .keep := by simpa [scripted, eq_comm] using gives
  exact kept

/-- The walk through both names ends, gives back the value, and has these nodes for
its listing. -/
theorem alternating_visits : Keeps (scripted []) ∧
    (walk alternating (scripted []) 8 (.reference "node") alternatingValue).Gives []
      alternatingValue alternatingNodes ∧
    Visits alternating ⟨.root, false, some (.reference "node"), alternatingValue⟩
      alternatingNodes := by
  have ends : (walk alternating (scripted []) 8 (.reference "node") alternatingValue).Gives []
      alternatingValue alternatingNodes := ⟨rfl, rfl⟩
  refine ⟨keeps_scripted_nil, ends, ?_⟩
  obtain ⟨-, nodes, gives, only, -⟩ := walk_visits_preorder keeps_scripted_nil ends
  have recorded : (walk alternating (traced (scripted [])) 8 (.reference "node")
      alternatingValue).Gives ([], []) alternatingValue
        (alternatingNodes, alternatingNodes.map fun node => (node, Visit.keep)) := ⟨rfl, rfl⟩
  have same := congrArg (fun st => st.2.map Prod.fst) (gives.unique recorded).2
  exact (only _).2 (by simpa [Function.comp_def] using same.symm)

end DataShape
