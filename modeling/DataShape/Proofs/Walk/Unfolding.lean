import DataShape.Proofs.Walk.Correspondence

/-!
# Walks of unfolded schemas

A walk replaces a reference by its body before it looks at it.  So a table and one that
unfolds it correspond, and each node of the walk on an unfolded schema mirrors the node
of the walk on the first one (`Walks.unfolds`).
-/

namespace DataShape

/-- The same task for an unfolded schema. -/
inductive Task.Unfolds (table : Table) : Task → Task → Prop
  | undeclared {path : Path} {optional : Bool} {v : Value} :
      Task.Unfolds table ⟨path, optional, none, v⟩ ⟨path, optional, none, v⟩
  | declared {path : Path} {optional : Bool} {s s' : Schema} {v : Value} : table.Unfolds s s' →
      Task.Unfolds table ⟨path, optional, some s, v⟩ ⟨path, optional, some s', v⟩

/-- The same node with a schema that mirrors the first one. -/
inductive Node.Mirrors (table : Table) : Node → Node → Prop
  | undeclared {path : Path} {v : Value} {options : Options} :
      Node.Mirrors table ⟨path, none, v, options⟩ ⟨path, none, v, options⟩
  | declared {path : Path} {t t' : Schema} {v : Value} {options : Options} : table.Mirrors t t' →
      Node.Mirrors table ⟨path, some t, v, options⟩ ⟨path, some t', v, options⟩

/-- The same answer to a node that mirrors the first one. -/
def Call.Mirrors (table : Table) (call call' : Call) : Prop :=
  call.1.Mirrors table call'.1 ∧ call.2 = call'.2

variable {table table' : Table}

/-- A table and one that unfolds it correspond. -/
theorem Table.UnfoldsTo.corresponds (tables : table.UnfoldsTo table') :
    table.Corresponds table' table.Unfolds table.Mirrors where
  resolve unfolds found found' := unfolds.resolve tables found found'
  aligned mirrors := by
    obtain ⟨head, below⟩ := Table.mirrors_iff.1 mirrors
    exact .of_head head fun _ => below

theorem Node.Mirrors.rel_iff {node node' : Node} :
    node.Rel table.Mirrors node' ↔ node.Mirrors table node' := by
  constructor
  · intro related
    cases related with
    | undeclared => exact .undeclared
    | declared mirrors => exact .declared mirrors
  · intro mirrors
    cases mirrors with
    | undeclared => exact .undeclared
    | declared mirrors => exact .declared mirrors

/-- The walks of a task and of one that unfolds it visit nodes that mirror each other,
one by one, and give the same result, as long as such nodes get the same answers. -/
theorem Walks.unfolds (tables : table.UnfoldsTo table') {task task' : Task} {w w' : Value}
    {calls calls' : List Call} (walks : Walks table task w calls)
    (walks' : Walks table' task' w' calls') (unfolds : task.Unfolds table task')
    (same : ∀ call ∈ calls, ∀ call' ∈ calls', call.1.Mirrors table call'.1 →
      call.2 = call'.2) :
    w = w' ∧ List.Forall₂ (Call.Mirrors table) calls calls' := by
  have related : task.Rel table.Unfolds task' := by
    cases unfolds with
    | undeclared => exact .undeclared
    | declared unfolds => exact .declared unfolds
  obtain ⟨result, each⟩ := walks.correspond tables.corresponds walks' related
    fun call mem call' mem' related => same call mem call' mem' (Node.Mirrors.rel_iff.1 related)
  exact ⟨result, each.imp fun _ _ h => ⟨Node.Mirrors.rel_iff.1 h.1, h.2⟩⟩

end DataShape
