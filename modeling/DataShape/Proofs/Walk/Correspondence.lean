import DataShape.Proofs.Names.Unfolding
import DataShape.Proofs.Walk.Transcript

/-!
# Walks that correspond

Two tables *correspond*, by a relation of the schemas that are declared and one of the
schemas that are visited, if related declared schemas resolve to related visited ones,
and visited ones that are related say the same above children that are related again.
What is below a choice does not matter, since no walk goes there.

Then the walks of related tasks visit related nodes at the same places in the same order,
and they give the same result (`Walks.correspond`).  This needs no more of the visitors
than that they give the same answers to related nodes.
-/

namespace DataShape

open Schema (Head)

/-! ## Definitions -/

/-- Two nodes say the same, and the children that a walk may go on to are related. -/
inductive Schema.Over (R : Schema → Schema → Prop) : Schema → Schema → Prop
  | primitive {p : Primitive} : Over R (.primitive p) (.primitive p)
  | list {e e' : Schema} : R e e' → Over R (.list e) (.list e')
  | tuple {es es' : List Schema} : List.Forall₂ R es es' → Over R (.tuple es) (.tuple es')
  | object {fs gs : List (Field Schema)} {w x : Option Schema} :
      List.Forall₂ (fun f g => f.head = g.head ∧ R f.schema g.schema) fs gs →
      Option.Rel R w x → Over R (.object fs w) (.object gs x)
  | choice {ss ss' : List Schema} : Over R (.choice ss) (.choice ss')
  | named {name : String} {body body' : Schema} : R body body' →
      Over R (.named name body) (.named name body')
  | reference {name : String} : Over R (.reference name) (.reference name)
  | literal {v : Value} : Over R (.literal v) (.literal v)

/-- The same task for a related schema. -/
inductive Task.Rel (R : Schema → Schema → Prop) : Task → Task → Prop
  | undeclared {path : Path} {optional : Bool} {v : Value} :
      Task.Rel R ⟨path, optional, none, v⟩ ⟨path, optional, none, v⟩
  | declared {path : Path} {optional : Bool} {s s' : Schema} {v : Value} : R s s' →
      Task.Rel R ⟨path, optional, some s, v⟩ ⟨path, optional, some s', v⟩

/-- The same node with a related schema. -/
inductive Node.Rel (Q : Schema → Schema → Prop) : Node → Node → Prop
  | undeclared {path : Path} {v : Value} {options : Options} :
      Node.Rel Q ⟨path, none, v, options⟩ ⟨path, none, v, options⟩
  | declared {path : Path} {t t' : Schema} {v : Value} {options : Options} : Q t t' →
      Node.Rel Q ⟨path, some t, v, options⟩ ⟨path, some t', v, options⟩

/-- The same answer to a related node. -/
def Call.Rel (Q : Schema → Schema → Prop) (call call' : Call) : Prop :=
  call.1.Rel Q call'.1 ∧ call.2 = call'.2

/-- Related schemas that are declared lead to related schemas that are visited, and those
to related schemas that are declared below them. -/
structure Table.Corresponds (table table' : Table) (R Q : Schema → Schema → Prop) : Prop where
  resolve : ∀ {s s' t t'}, R s s' → table.resolve s = .ok t → table'.resolve s' = .ok t' → Q t t'
  aligned : ∀ {t t'}, Q t t' → Schema.Over R t t'

variable {table table' : Table} {R Q : Schema → Schema → Prop} {t t' : Schema}

/-! ## Below a node -/

/-- Nodes that say the same are over their children. -/
theorem Schema.Over.of_head (head : Head Eq t t')
    (below : (∀ ss, t ≠ .choice ss) → List.Forall₂ R t.children t'.children) : Over R t t' := by
  cases t <;> cases t' <;> try exact False.elim head
  case primitive.primitive =>
    obtain rfl := head
    exact .primitive
  case list.list => exact .list (List.forall₂_cons.1 (below (by simp))).1
  case tuple.tuple => exact .tuple (below (by simp))
  case object.object =>
    have length := congrArg List.length head.1
    obtain ⟨fields, wildcards⟩ :=
      (Schema.forall₂_append_iff (by simpa using length)).1 (below (by simp))
    exact .object (Table.forall₂_fields_iff.2 ⟨head.1, fields⟩)
      (Table.rel_iff_forall₂_toList.2 ⟨head.2, wildcards⟩)
  case choice.choice => exact .choice
  case named.named =>
    obtain rfl := head
    exact .named (List.forall₂_cons.1 (below (by simp))).1
  case reference.reference =>
    obtain rfl := head
    exact .reference
  case literal.literal =>
    obtain rfl := head
    exact .literal

theorem Schema.Over.nullable_eq (aligned : Over R t t') : t.nullable = t'.nullable := by
  cases aligned <;> rfl

theorem Task.Rel.of_rel {path : Path} {optional : Bool} {s s' : Option Schema} {v : Value}
    (h : Option.Rel R s s') : Task.Rel R ⟨path, optional, s, v⟩ ⟨path, optional, s', v⟩ := by
  cases h with
  | none => exact .undeclared
  | some related => exact .declared related

/-- Fields that say the same and have related schemas declare related schemas for a key,
both as optional or both as required. -/
theorem forKey?_rel {fs gs : List (Field Schema)} {w x : Option Schema}
    (fields : List.Forall₂ (fun f g => f.head = g.head ∧ R f.schema g.schema) fs gs)
    (wildcards : Option.Rel R w x) (key : String) :
    optionalAt fs key = optionalAt gs key ∧
      Option.Rel R (Schema.forKey? fs w key) (Schema.forKey? gs x key) := by
  induction fields with
  | nil => exact ⟨rfl, wildcards⟩
  | @cons f g fs gs head _ ih =>
      obtain ⟨same, schema⟩ := head
      obtain ⟨name, optional⟩ := Prod.mk.inj same
      simp only [optionalAt, Schema.forKey?, Field.find?, name] at ih ⊢
      by_cases here : g.name = key
      · rw [if_pos here, if_pos here]
        exact ⟨optional, .some schema⟩
      · rw [if_neg here, if_neg here]
        exact ih

/-- The tasks below two nodes are the same but for related schemas. -/
theorem Schema.Over.tasksBelow (aligned : Over R t t') (path : Path) (v : Value) :
    List.Forall₂ (Task.Rel R) (DataShape.tasksBelow path t v) (DataShape.tasksBelow path t' v) := by
  cases aligned with
  | list related =>
      cases v with
      | list items =>
          simp only [DataShape.tasksBelow, List.forall₂_map_left_iff, List.forall₂_map_right_iff]
          exact List.forall₂_same.2 fun x _ => .declared related
      | _ => exact .nil
  | tuple each =>
      cases v with
      | list items =>
          simp only [DataShape.tasksBelow, List.forall₂_map_left_iff, List.forall₂_map_right_iff]
          have same : List.Forall₂ Eq items items := List.forall₂_same.2 fun _ _ => rfl
          refine (Schema.forall₂_zipIdx (Schema.forall₂_zip each same) 0).imp ?_
          rintro ⟨⟨e, item⟩, i⟩ ⟨⟨e', item'⟩, i'⟩ ⟨⟨related, rfl⟩, rfl⟩
          exact .declared related
      | _ => exact .nil
  | object fields wildcards =>
      cases v with
      | dict entries =>
          simp only [DataShape.tasksBelow, List.forall₂_map_left_iff, List.forall₂_map_right_iff]
          refine List.forall₂_same.2 fun e _ => ?_
          obtain ⟨optional, declared⟩ := forKey?_rel fields wildcards e.1
          rw [optional]
          exact .of_rel declared
      | _ => exact .nil
  | _ => exact .nil

/-- Results make up the same value at both nodes. -/
theorem Schema.Over.assemble_eq (aligned : Over R t t') (v : Value) (results : List Value) :
    assemble t v results = assemble t' v results := by
  cases aligned with
  | tuple each =>
      cases v with
      | list items => rw [assemble, assemble, each.length_eq]
      | _ => rfl
  | list | object => cases v <;> rfl
  | _ => rfl

/-! ## Both walks -/

/-- If each leg has the same result and related calls, then so do all of them together. -/
theorem legs_correspond {legs legs' : List Leg}
    (tasks : List.Forall₂ (Task.Rel R) (legs.map Leg.task) (legs'.map Leg.task))
    (each : ∀ leg ∈ legs, ∀ leg' ∈ legs', leg.task.Rel R leg'.task →
      leg.result = leg'.result ∧ List.Forall₂ (Call.Rel Q) leg.calls leg'.calls) :
    legs.map Leg.result = legs'.map Leg.result ∧
      List.Forall₂ (Call.Rel Q) (legs.flatMap Leg.calls) (legs'.flatMap Leg.calls) := by
  rw [List.forall₂_map_left_iff, List.forall₂_map_right_iff] at tasks
  induction tasks with
  | nil => exact ⟨rfl, .nil⟩
  | @cons leg leg' legs legs' head _ ih =>
      obtain ⟨result, calls⟩ := each leg (by simp) leg' (by simp) head
      obtain ⟨results, rest⟩ := ih fun leg mem leg' mem' =>
        each leg (by simp [mem]) leg' (by simp [mem'])
      exact ⟨congrArg₂ List.cons result results, List.rel_append calls rest⟩

/-- The walks of related tasks visit related nodes, one by one, and give the same result,
as long as such nodes get the same answers. -/
theorem Walks.correspond (tables : table.Corresponds table' R Q) {task task' : Task}
    {w w' : Value} {calls calls' : List Call} (walks : Walks table task w calls)
    (walks' : Walks table' task' w' calls') (related : task.Rel R task')
    (same : ∀ call ∈ calls, ∀ call' ∈ calls', call.1.Rel Q call'.1 → call.2 = call'.2) :
    w = w' ∧ List.Forall₂ (Call.Rel Q) calls calls' := by
  induction walks generalizing task' w' calls' with
  | @undeclared path optional v answer =>
      cases related
      cases walks' with
      | @undeclared _ _ _ answer' =>
          obtain rfl : answer = answer' := same _ (.head _) _ (.head _) .undeclared
          exact ⟨rfl, .cons ⟨.undeclared, rfl⟩ .nil⟩
  | named found _ ih =>
      cases related with
      | declared related =>
          cases walks' with
          | named found' walks' =>
              cases tables.aligned (tables.resolve related found found') with
              | named related => exact ih walks' (.declared related) same
          | visit found' named =>
              cases tables.aligned (tables.resolve related found found')
              exact absurd rfl (named _ _)
  | @visit path optional s t v answer legs found named tasks _ ih =>
      cases related with
      | declared related =>
          cases walks' with
          | named found' =>
              cases tables.aligned (tables.resolve related found found')
              exact absurd rfl (named _ _)
          | @visit _ _ _ t' _ answer' legs' found' named' tasks' walks' =>
              have visited := tables.resolve related found found'
              have aligned := tables.aligned visited
              have node : Node.Rel Q ⟨path, some t, v, ⟨t.nullable, optional⟩⟩
                  ⟨path, some t', v, ⟨t'.nullable, optional⟩⟩ :=
                aligned.nullable_eq ▸ .declared visited
              obtain rfl : answer = answer' := same _ (.head _) _ (.head _) node
              have below : List.Forall₂ (Task.Rel R) (legs.map Leg.task) (legs'.map Leg.task) := by
                rw [tasks, tasks']
                exact aligned.tasksBelow path _
              obtain ⟨results, calls⟩ := legs_correspond below fun leg mem leg' mem' related =>
                ih leg mem (walks' leg' mem') related fun call inside call' inside' =>
                  same call (.tail _ (List.mem_flatMap.2 ⟨leg, mem, inside⟩)) call'
                    (.tail _ (List.mem_flatMap.2 ⟨leg', mem', inside'⟩))
              exact ⟨by rw [results, aligned.assemble_eq], .cons ⟨node, rfl⟩ calls⟩

end DataShape
