import DataShape.Proofs.Extension
import DataShape.Proofs.Names.Stripping
import DataShape.Proofs.Walk.Task

/-!
# Walks of stripped schemas

A walk goes through a named type to its body before it looks at anything.  So the
walks of a schema and of the stripped schema visit the same places in the same order,
and the nodes of the second walk have the stripped schemas of the first ones.  The
second walk has fewer steps to do, so it needs no larger limit (`extendsTo_walkAt`).

The bodies of the table must be stripped, as they are in a filled table.  A schema is
only ever compared with its stripped form, and a stripped body is its own stripped form.
-/

namespace DataShape

open Schema (Part)

/-- The same task for the stripped schema. -/
def Task.strip (task : Task) : Task := { task with schema := task.schema.map Schema.strip }

/-- The same node with the stripped schema. -/
def Node.strip (node : Node) : Node := { node with schema := node.schema.map Schema.strip }

/-! ## Below a node -/

theorem optionalAt_stripFields (fields : List (Field Schema)) (key : String) :
    optionalAt (Schema.stripFields fields) key = optionalAt fields key := by
  rw [optionalAt, optionalAt, find?_stripFields]
  cases Field.find? key fields <;> rfl

variable {s t : Schema}

/-- The tasks below a stripped node are those below the node, stripped. -/
theorem tasksBelow_strip (other : ∀ name body, t ≠ .named name body) (path : Path) (v : Value) :
    tasksBelow path t.strip v = (tasksBelow path t v).map Task.strip := by
  cases t with
  | named name body => exact absurd rfl (other name body)
  | list element =>
      cases v with
      | list items => simp [Schema.strip, tasksBelow, Task.strip]
      | _ => rfl
  | tuple elements =>
      cases v with
      | list items =>
          rw [Schema.strip, Schema.stripAll_eq_map, tasksBelow, tasksBelow, List.zip_map_left,
            List.zipIdx_map, List.map_map, List.map_map]
          rfl
      | _ => rfl
  | object fields wildcard =>
      cases v with
      | dict entries =>
          simp [Schema.strip, tasksBelow, Task.strip, optionalAt_stripFields, forKey?_strip]
      | _ => rfl
  | _ => rfl

/-- Results make up the same value at a stripped node. -/
theorem assemble_strip (other : ∀ name body, t ≠ .named name body) (v : Value)
    (results : List Value) : assemble t.strip v results = assemble t v results := by
  cases t with
  | named name body => exact absurd rfl (other name body)
  | tuple elements => cases v <;> simp [Schema.strip, Schema.stripAll_eq_map, assemble]
  | list | object => cases v <;> rfl
  | _ => rfl

theorem nullable_strip (other : ∀ name body, t ≠ .named name body) :
    t.strip.nullable = t.nullable := by
  cases t with
  | named name body => exact absurd rfl (other name body)
  | _ => rfl

/-! ## References -/

namespace Table

variable {table : Table}

/-- References lead to a named type only from one. -/
theorem ne_named_of_resolve (bodies : table.Unnamed) (other : ∀ name body, s ≠ .named name body)
    (found : table.resolve s = .ok t) : ∀ name body, t ≠ .named name body := by
  refine follow_ind (motive := fun s => ∀ name body, s ≠ .named name body) ?_ found other
  intro name body known _
  exact (bodies _ (Entries.mem_of_find? known)).ne_named

/-- A stripped schema leads to what the schema leads to, stripped. -/
theorem resolve_strip (bodies : table.Unnamed) (other : ∀ name body, s ≠ .named name body) :
    table.resolve s.strip = (table.resolve s).map Schema.strip := by
  cases s with
  | named name body => exact absurd rfl (other name body)
  | reference name =>
      cases found : table.resolve (.reference name) with
      | error e => rw [Schema.strip, found, Except.map]
      | ok t =>
          have unnamed : t.Unnamed := by
            refine follow_ind (motive := Schema.Unnamed) ?_ found ?_
            · exact fun name body known _ => bodies _ (Entries.mem_of_find? known)
            · exact (Schema.reference name).unnamed_strip
          rw [Schema.strip, found, Except.map, unnamed.strip_eq]
  | _ => rfl

/-- What is found has a property throughout if the schema has it, and if everything
without named types has it. -/
theorem throughout_of_resolve {P : Schema → Prop} (bodies : table.Unnamed)
    (unnamed : ∀ u, u.Unnamed → P u) (known : s.Throughout P)
    (found : table.resolve s = .ok t) : t.Throughout P := by
  refine follow_ind (motive := Schema.Throughout P) ?_ found known
  intro name body known _
  exact .of_unnamed unnamed (bodies _ (Entries.mem_of_find? known))

end Table

/-! ## Walks -/

section

variable {σ : Type} {Q : σ → σ → Prop} {table : Table} {visit visit' : Visitor σ}
  {P : Schema → Prop} {limit limit' : Nat} {path : Path} {optional : Bool} {v : Value}

/-- Under a named type a walk goes on with the body. -/
theorem walkAt_named {name : String} {body : Schema} :
    walkAt table visit (limit + 1) path optional (.named name body) v =
      walkAt table visit limit path optional body v := rfl

theorem walkAt_of_error {e : DefinitionError} (failed : table.resolve s = .error e) :
    walkAt table visit (limit + 1) path optional s v = Run.fail (.definition e) := by
  rw [walkAt, failed]
  rfl

/-- Under anything else a walk visits what references lead to. -/
theorem walkAt_of_ok (found : table.resolve s = .ok t) (other : ∀ name body, t ≠ .named name body) :
    walkAt table visit (limit + 1) path optional s v = (do
      Run.emit (.visiting path t)
      let answer ← visit ⟨path, some t, v, ⟨t.nullable, optional⟩⟩
      assemble t (answer.on v) <$> (tasksBelow path t (answer.on v)).mapM
        (perform visit (walkAt table visit limit))) := by
  rw [walkAt, found]
  simp only [← descend_eq]
  cases t with
  | named name body => exact absurd rfl (other name body)
  | _ => rfl

/-- Two visitors do the same at a node whose schema is no named type and has a property
throughout, and at the stripped node. -/
def VisitAlike (Q : σ → σ → Prop) (P : Schema → Prop) (visit visit' : Visitor σ) : Prop :=
  ∀ node : Node, (∀ t, node.schema = some t →
      (∀ name body, t ≠ .named name body) ∧ t.Throughout P) →
    Run.ExtendsTo Q (visit node) (visit' node.strip)

/-- A task is done as the stripped task is, if the steps are alike where there is a schema. -/
theorem extendsTo_perform {step step' : Path → Bool → Schema → Value → Run σ Value}
    (visits : VisitAlike Q P visit visit') {task : Task}
    (steps : ∀ u, task.schema = some u →
      Run.ExtendsTo Q (step task.path task.optional u task.value)
        (step' task.path task.optional u.strip task.value)) :
    Run.ExtendsTo Q (perform visit step task) (perform visit' step' task.strip) := by
  obtain ⟨path, optional, schema, v⟩ := task
  cases schema with
  | some u => exact steps u rfl
  | none =>
      refine (Run.extendsTo_emit _ _).bind fun _ => ?_
      exact (visits ⟨path, none, v, ⟨false, false⟩⟩ (fun t eq => nomatch eq)).map _

/-- The walk of a stripped schema does what the walk of the schema does, if the visitors
do the same at each node. -/
theorem extendsTo_walkAt (bodies : table.Unnamed) (unnamed : ∀ u, u.Unnamed → P u)
    (visits : VisitAlike Q P visit visit') (le : limit ≤ limit') (known : s.Throughout P) :
    Run.ExtendsTo Q (walkAt table visit limit path optional s v)
      (walkAt table visit' limit' path optional s.strip v) := by
  induction limit generalizing limit' path optional s v with
  | zero => exact Run.extendsTo_fail_limit _
  | succ limit ih =>
      rcases s.named_or_other with ⟨name, body, rfl⟩ | other
      · -- only the first walk takes a step here, so its limit falls behind the other one
        rw [walkAt_named]
        exact ih (Nat.le_of_succ_le le) (known.child (by simp [Schema.children]))
      · obtain ⟨limit', rfl⟩ := Nat.exists_eq_add_one_of_ne_zero (Nat.ne_zero_of_lt le)
        have leads := Table.resolve_strip bodies other
        cases found : table.resolve s with
        | error e =>
            rw [found] at leads
            rw [walkAt_of_error found, walkAt_of_error leads]
            exact Run.extendsTo_ofDefinition (.error e)
        | ok t =>
            rw [found] at leads
            have other' := Table.ne_named_of_resolve bodies other found
            have known' := Table.throughout_of_resolve bodies unnamed known found
            rw [walkAt_of_ok found other', walkAt_of_ok leads t.unnamed_strip.ne_named]
            rw [nullable_strip other']
            refine (Run.extendsTo_emit _ _).bind fun _ => ?_
            have declared : ∀ u, some t = some u → (∀ name body, u ≠ .named name body) ∧
                u.Throughout P := fun u eq => Option.some.inj eq ▸ ⟨other', known'⟩
            refine (visits ⟨path, some t, v, _⟩ declared).bind fun answer => ?_
            have same : assemble t.strip (answer.on v) = assemble t (answer.on v) :=
              funext (assemble_strip other' _)
            rw [tasksBelow_strip other', same, List.mapM_map]
            refine (Run.extendsTo_mapM fun task mem => ?_).map _
            refine extendsTo_perform visits fun u eq => ?_
            have inside := (of_mem_tasksBelow mem).2 u eq
            exact ih (Nat.le_of_succ_le_succ le) (known'.child inside)

theorem extendsTo_walk (bodies : table.Unnamed) (unnamed : ∀ u, u.Unnamed → P u)
    (visits : VisitAlike Q P visit visit') (le : limit ≤ limit') (known : s.Throughout P) :
    Run.ExtendsTo Q (walk table visit limit s v) (walk table visit' limit' s.strip v) :=
  extendsTo_walkAt bodies unnamed visits le known

end

end DataShape
