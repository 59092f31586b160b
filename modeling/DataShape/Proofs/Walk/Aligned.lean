import DataShape.Proofs.Walk.Places
import DataShape.Proofs.Walk.Visits

/-!
# Walks of values that differ where nothing is described

An object schema without a wildcard says nothing about the values under undeclared keys, and a
tuple schema nothing about the items behind its last element.  Two values are *aligned* under a
schema if they have the same keys and lengths wherever a walk goes down.  One relation holds
where nothing is described (`free`) and another one where a value is described as a whole
(`told`).  With any relation and equality, the values differ in nothing that is described.
With equality and any relation, they differ only in what is described.

The walks of two values that differ in nothing that is described visit the same places with the
same schemas, and their results are aligned if the answers are (`Walks.aligned`).  This is an
induction over one of the transcripts.  What it needs of a node is whether something differs
there, other than below it (`AlignedAt`).
-/

namespace DataShape

/-! ## Definitions -/

/-- Two values are aligned under what is declared for them, if anything is. -/
inductive Table.Aligned (table : Table) (free told : Value → Value → Prop) :
    Option Schema → Value → Value → Prop
  /-- Nothing describes the values. -/
  | free {v w : Value} : free v w → Aligned table free told none v w
  /-- The values are described as a whole. -/
  | told {s : Schema} {v w : Value} : told v w → Aligned table free told (some s) v w
  | list {s element : Schema} {as bs : List Value} : table.Unwraps s (.list element) →
      as.length = bs.length → (∀ x ∈ as.zip bs, Aligned table free told (some element) x.1 x.2) →
      Aligned table free told (some s) (.list as) (.list bs)
  /-- Nothing describes the items behind the last element. -/
  | tuple {s : Schema} {elements : List Schema} {as bs : List Value} :
      table.Unwraps s (.tuple elements) → as.length = bs.length →
      (∀ (i : Nat) (a b : Value), as[i]? = some a → bs[i]? = some b →
        Aligned table free told elements[i]? a b) →
      Aligned table free told (some s) (.list as) (.list bs)
  /-- Nothing describes the values under undeclared keys, unless there is a wildcard. -/
  | object {s : Schema} {fields : List (Field Schema)} {wildcard : Option Schema}
      {as bs : List (String × Value)} : table.Unwraps s (.object fields wildcard) →
      Entries.keys as = Entries.keys bs →
      (∀ x ∈ as.zip bs,
        Aligned table free told (Schema.forKey? fields wildcard x.1.1) x.1.2 x.2.2) →
      Aligned table free told (some s) (.dict as) (.dict bs)

/-- Two values are aligned at a visited node, whatever is in the places of the tasks below. -/
def AlignedAt (free told : Value → Value → Prop) : Option Schema → Value → Value → Prop
  | none, v, w => free v w
  | some (.list _), .list as, .list bs => as.length = bs.length
  | some (.tuple elements), .list as, .list bs => as.length = bs.length ∧
      ∀ i a b, elements.length ≤ i → as[i]? = some a → bs[i]? = some b → free a b
  | some (.object _ _), .dict as, .dict bs => Entries.keys as = Entries.keys bs
  | some _, v, w => told v w

/-- The same task for an aligned value. -/
structure Task.Aligned (table : Table) (free told : Value → Value → Prop)
    (task task' : Task) : Prop where
  path : task.path = task'.path
  optional : task.optional = task'.optional
  schema : task.schema = task'.schema
  value : table.Aligned free told task.schema task.value task'.value

/-- The same node with an aligned value. -/
structure Node.Aligned (free told : Value → Value → Prop) (node node' : Node) : Prop where
  path : node.path = node'.path
  schema : node.schema = node'.schema
  value : AlignedAt free told node.schema node.value node'.value
  options : node.options = node'.options

/-- Both calls keep their values, or nothing is below them and their new values are related. -/
def Call.Aligned (told : Value → Value → Prop) (call call' : Call) : Prop :=
  (call.2 = .keep ∧ call'.2 = .keep) ∨
    call.1.Leaf ∧ told (call.2.on call.1.value) (call'.2.on call'.1.value)

variable {table : Table} {free told : Value → Value → Prop} {s t u : Schema} {v w v' w' : Value}
  {path : Path} {legs legs' : List Leg} {calls calls' : List Call}

/-! ## Unwrapped schemas -/

/-- What is found through references is unwrapped to the same schema. -/
theorem Table.Unwraps.follow {limit : Nat} (h : table.Unwraps s t)
    (found : table.follow limit s = .ok u) : table.Unwraps u t := by
  refine Table.follow_ind (motive := fun u => table.Unwraps u t)
    (fun name body lookup h => ?_) found h
  cases h with
  | here reference _ => exact absurd rfl (reference name)
  | reference lookup' h =>
      cases lookup.symm.trans lookup'
      exact h

/-- A name leads to the schema that its body is unwrapped to. -/
theorem Table.Unwraps.body {name : String} {body : Schema} (h : table.Unwraps s t)
    (found : table.resolve s = .ok (.named name body)) : table.Unwraps body t := by
  cases h.follow found with
  | here _ named => exact absurd rfl (named name body)
  | named h => exact h

namespace Table.Aligned

/-- Values are aligned under a schema that is unwrapped like theirs. -/
theorem of_unwraps (h : table.Aligned free told (some s) v w)
    (ahead : ∀ t, table.Unwraps s t → table.Unwraps u t) :
    table.Aligned free told (some u) v w := by
  cases h with
  | told related => exact .told related
  | list unwraps length each => exact .list (ahead _ unwraps) length each
  | tuple unwraps length each => exact .tuple (ahead _ unwraps) length each
  | object unwraps keys each => exact .object (ahead _ unwraps) keys each

theorem refl (free_refl : ∀ v, free v v) (told_refl : ∀ v, told v v) (schema : Option Schema)
    (v : Value) : table.Aligned free told schema v v := by
  cases schema with
  | none => exact .free (free_refl v)
  | some s => exact .told (told_refl v)

/-! ## One node -/

variable (free_refl : ∀ v, free v v)

include free_refl

/-- Values that differ in nothing that is described are aligned at their node. -/
theorem at_node (h : table.Aligned free Eq (some s) v w) (unwraps : table.Unwraps s t) :
    AlignedAt free Eq (some t) v w := by
  cases h with
  | told same =>
      subst same
      cases t with
      | list | object => cases v <;> exact rfl
      | tuple elements =>
          cases v with
          | list items =>
              refine ⟨rfl, fun i a b _ found found' => ?_⟩
              cases found.symm.trans found'
              exact free_refl a
          | _ => exact rfl
      | _ => exact rfl
  | list unwraps' length =>
      cases unwraps.unique unwraps'
      exact length
  | @tuple _ elements as bs unwraps' length each =>
      cases unwraps.unique unwraps'
      refine ⟨length, fun i a b behind found found' => ?_⟩
      have related := each i a b found found'
      rw [List.getElem?_eq_none behind] at related
      cases related with
      | free related => exact related
  | object unwraps' keys =>
      cases unwraps.unique unwraps'
      exact keys

/-- So are the values of the tasks below the node. -/
theorem tasks (h : table.Aligned free Eq (some s) v w) (unwraps : table.Unwraps s t)
    (path : Path) : List.Forall₂ (Task.Aligned table free Eq) (tasksBelow path t v)
      (tasksBelow path t w) := by
  cases h with
  | told same =>
      -- Equal values may have tasks below them, too, and these are aligned with themselves.
      subst same
      exact List.forall₂_same.2 fun task _ => ⟨rfl, rfl, rfl, .refl free_refl (fun _ => rfl) _ _⟩
  | list unwraps' length each =>
      cases unwraps.unique unwraps'
      simp only [tasksBelow, List.forall₂_map_left_iff, List.forall₂_map_right_iff]
      refine (Schema.forall₂_zipIdx (Schema.forall₂_iff_forall_zip.2 ⟨length, each⟩) 0).imp ?_
      rintro ⟨a, i⟩ ⟨b, _⟩ ⟨related, rfl⟩
      exact ⟨rfl, rfl, rfl, related⟩
  | tuple unwraps' length each =>
      cases unwraps.unique unwraps'
      refine List.forall₂_iff_get.2 ⟨by simp [tasksBelow, length], fun i inside inside' => ?_⟩
      simp only [tasksBelow, List.length_map, List.length_zipIdx, List.length_zip,
        Nat.lt_min] at inside inside'
      have related := each i _ _ (List.getElem?_eq_getElem inside.2)
        (List.getElem?_eq_getElem inside'.2)
      rw [List.getElem?_eq_getElem inside.1] at related
      simp only [tasksBelow, List.get_eq_getElem, List.getElem_map, List.getElem_zipIdx,
        List.getElem_zip, Nat.zero_add]
      exact ⟨rfl, rfl, rfl, related⟩
  | object unwraps' keys each =>
      cases unwraps.unique unwraps'
      obtain ⟨length, same⟩ := Schema.forall₂_iff_forall_zip.1
        ((Value.forall₂_entries_iff (P := fun _ _ => True)).2 ⟨keys, fun _ _ => trivial⟩)
      simp only [tasksBelow, List.forall₂_map_left_iff, List.forall₂_map_right_iff]
      refine Schema.forall₂_iff_forall_zip.2 ⟨length, fun x mem => ?_⟩
      obtain ⟨⟨key, a⟩, ⟨_, b⟩⟩ := x
      obtain rfl : key = _ := (same _ mem).1
      exact ⟨rfl, rfl, rfl, each _ mem⟩

omit free_refl

/-- Values are aligned if they are aligned at their node and so are the tasks below it. -/
theorem of_node (path : Path) (unwraps : table.Unwraps s t) (here : AlignedAt free told (some t) v w)
    (below : List.Forall₂ (Task.Aligned table free told) (tasksBelow path t v)
      (tasksBelow path t w)) : table.Aligned free told (some s) v w := by
  cases t with
  | list element =>
      cases v with
      | list as =>
          cases w with
          | list bs =>
              simp only [tasksBelow, List.forall₂_map_left_iff, List.forall₂_map_right_iff]
                at below
              refine .list unwraps here (Schema.forall₂_iff_forall_zip.1 ?_).2
              rw [← List.zipIdx_map_fst 0 as, ← List.zipIdx_map_fst 0 bs,
                List.forall₂_map_left_iff, List.forall₂_map_right_iff]
              exact below.imp fun _ _ related => related.value
          | _ => exact .told here
      | _ => exact .told here
  | tuple elements =>
      cases v with
      | list as =>
          cases w with
          | list bs =>
              obtain ⟨length, surplus⟩ := here
              refine .tuple unwraps length fun i a b found found' => ?_
              rcases Nat.lt_or_ge i elements.length with lt | le
              · obtain ⟨inside, rfl⟩ := List.getElem?_eq_some_iff.1 found
                obtain ⟨inside', rfl⟩ := List.getElem?_eq_some_iff.1 found'
                rw [List.getElem?_eq_getElem lt]
                have related := (List.forall₂_iff_get.1 below).2 i
                  (by simp [tasksBelow, lt, inside]) (by simp [tasksBelow, lt, inside'])
                simpa [tasksBelow] using related.value
              · rw [List.getElem?_eq_none le]
                exact .free (surplus i a b le found found')
          | _ => exact .told here
      | _ => exact .told here
  | object fields wildcard =>
      cases v with
      | dict as =>
          cases w with
          | dict bs =>
              simp only [tasksBelow, List.forall₂_map_left_iff, List.forall₂_map_right_iff]
                at below
              refine .object unwraps here fun x mem => ?_
              exact ((Schema.forall₂_iff_forall_zip.1 below).2 x mem).value
          | _ => exact .told here
      | _ => exact .told here
  | _ => exact .told here

end Table.Aligned

/-- Other values in the places of the tasks do not change what there is at the node. -/
theorem AlignedAt.assemble (h : AlignedAt free Eq (some t) v w) (told_refl : ∀ v, told v v)
    {results results' : List Value} (length : results.length = (tasksBelow path t v).length)
    (length' : results'.length = (tasksBelow path t w).length) :
    AlignedAt free told (some t) (assemble t v results) (assemble t w results') := by
  have alike := alike_assemble path length
  have alike' := alike_assemble path length'
  cases t with
  | list element =>
      cases v with
      | list as =>
          cases w with
          | list bs => exact alike.symm.trans (Eq.trans h alike')
          | _ => cases h
      | _ =>
          cases h
          exact told_refl _
  | tuple elements =>
      cases v with
      | list as =>
          cases w with
          | list bs =>
              obtain ⟨same, surplus⟩ := h
              refine ⟨alike.symm.trans (same.trans alike'), fun i a b le found found' => ?_⟩
              simp only [tasksBelow, List.length_map, List.length_zipIdx, List.length_zip]
                at length length'
              rw [getElem?_append_drop length le] at found
              rw [getElem?_append_drop length' le] at found'
              exact surplus i a b le found found'
          | _ => cases h
      | _ =>
          cases h
          exact told_refl _
  | object fields wildcard =>
      cases v with
      | dict as =>
          cases w with
          | dict bs => exact Eq.trans alike.symm (Eq.trans h alike')
          | _ => cases h
      | _ =>
          cases h
          exact told_refl _
  | _ =>
      cases h
      exact told_refl _

/-! ## Both walks -/

/-- The legs of aligned values belong together one by one. -/
theorem legs_aligned (aligned : table.Aligned free Eq (some s) v w) (unwraps : table.Unwraps s t)
    (free_refl : ∀ v, free v v) (tasks : legs.map Leg.task = tasksBelow path t v)
    (tasks' : legs'.map Leg.task = tasksBelow path t w) :
    List.Forall₂ (fun leg leg' => leg.task.Aligned table free Eq leg'.task) legs legs' := by
  have related := aligned.tasks free_refl unwraps path
  rwa [← tasks, ← tasks', List.forall₂_map_left_iff, List.forall₂_map_right_iff] at related

/-- Aligned results are put together to aligned values. -/
theorem assemble_aligned (here : AlignedAt free Eq (some t) v w) (unwraps : table.Unwraps s t)
    (told_refl : ∀ v, told v v) (tasks : legs.map Leg.task = tasksBelow path t v)
    (tasks' : legs'.map Leg.task = tasksBelow path t w)
    (below : List.Forall₂ (fun leg leg' => leg.task.Aligned table free Eq leg'.task ∧
      table.Aligned free told leg.task.schema leg.result leg'.result) legs legs') :
    table.Aligned free told (some s) (assemble t v (legs.map Leg.result))
      (assemble t w (legs'.map Leg.result)) := by
  refine .of_node path unwraps
    (here.assemble told_refl (length_results tasks) (length_results tasks')) ?_
  rw [tasksBelow_assemble_legs tasks, tasksBelow_assemble_legs tasks',
    List.forall₂_map_left_iff, List.forall₂_map_right_iff]
  exact below.imp fun leg leg' related =>
    ⟨related.1.path, related.1.optional, related.1.schema, related.2⟩

/-- The walks of values that differ in nothing that is described visit aligned nodes one after
the other, and their results are aligned if the answers are. -/
theorem Walks.aligned (free_refl : ∀ v, free v v) (told_refl : ∀ v, told v v) {task task' : Task}
    (walks : Walks table task v' calls) (walks' : Walks table task' w' calls')
    (related : task.Aligned table free Eq task')
    (answers : ∀ call ∈ calls, ∀ call' ∈ calls', call.1.Aligned free Eq call'.1 →
      call.Aligned told call') :
    table.Aligned free told task.schema v' w' ∧
      List.Forall₂ (fun call call' => call.1.Aligned free Eq call'.1) calls calls' := by
  induction walks generalizing task' w' calls' with
  | @undeclared path optional v answer =>
      obtain ⟨path', optional', s', w⟩ := task'
      obtain ⟨rfl, rfl, rfl, values⟩ := related
      cases walks' with
      | @undeclared _ _ _ answer' =>
          cases values with
          | free values =>
              have node : Node.Aligned free Eq ⟨path, none, v, ⟨false, false⟩⟩
                  ⟨path, none, w, ⟨false, false⟩⟩ := ⟨rfl, rfl, values, rfl⟩
              refine ⟨?_, .cons node .nil⟩
              rcases answers _ (.head _) _ (.head _) node with ⟨kept, kept'⟩ | ⟨leaf, -⟩
              · obtain rfl : answer = .keep := kept
                obtain rfl : answer' = .keep := kept'
                exact .free values
              · obtain ⟨_, declared⟩ := leaf.exists_schema
                cases declared
  | named found _ ih =>
      obtain ⟨path', optional', s', w⟩ := task'
      obtain ⟨rfl, rfl, rfl, values⟩ := related
      cases walks' with
      | named found' walks' =>
          cases found.symm.trans found'
          have values := values.of_unwraps fun t unwraps => unwraps.body found
          obtain ⟨results, nodes⟩ := ih walks' ⟨rfl, rfl, rfl, values⟩ answers
          exact ⟨results.of_unwraps fun t unwraps => .of_follow found (.named unwraps), nodes⟩
      | visit found' named =>
          cases found.symm.trans found'
          exact absurd rfl (named _ _)
  | @visit path optional s t v answer legs found named tasks _ ih =>
      obtain ⟨path', optional', s', w⟩ := task'
      obtain ⟨rfl, rfl, rfl, values⟩ := related
      cases walks' with
      | named found' =>
          cases found.symm.trans found'
          exact absurd rfl (named _ _)
      | @visit _ _ _ t' _ answer' legs' found' _ tasks' walks' =>
          cases found.symm.trans found'
          have unwraps : table.Unwraps s t := .of_resolve found named
          have here := values.at_node free_refl unwraps
          have node : Node.Aligned free Eq ⟨path, some t, v, ⟨t.nullable, optional⟩⟩
              ⟨path, some t, w, ⟨t.nullable, optional⟩⟩ := ⟨rfl, rfl, here, rfl⟩
          -- Either both walks go on below aligned values, or nothing is below the node.
          rcases answers _ (.head _) _ (.head _) node with ⟨kept, kept'⟩ | ⟨leaf, after⟩
          · obtain rfl : answer = .keep := kept
            obtain rfl : answer' = .keep := kept'
            have aligned := legs_aligned values unwraps free_refl tasks tasks'
            have below := Schema.forall₂_imp_of_mem (fun leg mem leg' mem' related =>
              And.intro related (ih leg mem (walks' leg' mem') related
                fun call inside call' inside' =>
                  answers call (.tail _ (List.mem_flatMap.2 ⟨leg, mem, inside⟩)) call'
                    (.tail _ (List.mem_flatMap.2 ⟨leg', mem', inside'⟩)))) aligned
            refine ⟨assemble_aligned here unwraps told_refl tasks tasks'
              (below.imp fun _ _ related => ⟨related.1, related.2.1⟩), .cons node ?_⟩
            exact List.rel_flatMap (below.imp fun _ _ related => related.2.2)
              fun _ _ nodes => nodes
          · have none : legs = [] := by simpa [leaf.tasksBelow_eq_nil] using tasks
            have none' : legs' = [] := by simpa [leaf.tasksBelow_eq_nil] using tasks'
            subst none
            subst none'
            rw [leaf.assemble_eq, leaf.assemble_eq]
            exact ⟨.told after, .cons node .nil⟩

end DataShape
