import DataShape.Names.Resolved
import DataShape.Proofs.Names.Resolution
import DataShape.Proofs.Schema.Like

/-!
# Unfolded schemas

A schema *expands* to another one if some of its references are replaced by their
bodies, any set of them at once.  A table and a root expand if all bodies and the root
do, always with the bodies of the same first table.

What comes out of any number of such steps *unfolds* the first schema.  This is said
with one rule: references lead from the first schema to one that says the same as the
second, and the children of the two unfold one by one (`unfolds_of_steps`).

An unfolded table still passes the check.  A name that it leads to is one that the
first table leads to in one step or more, so no new circle comes up
(`UnfoldsTo.verify_eq_ok`).
-/

namespace DataShape

open Schema (Head Part Exposes)

namespace Table

variable {table table' : Table} {s t u : Schema} {name m : String} {body : Schema}

/-! ## Definitions -/

/-- Some references in the schema are replaced by their bodies. -/
inductive Expands (table : Table) : Schema → Schema → Prop
  | body {name : String} {body : Schema} : Entries.find? name table = some body →
      Expands table (.reference name) body
  | node {s t : Schema} : Head Eq s t → s.children.length = t.children.length →
      (∀ x ∈ s.children.zip t.children, Expands table x.1 x.2) → Expands table s t

/-- Some references in the bodies and in the root are replaced by the bodies of a table. -/
def Step (table : Table) (before after : Table × Schema) : Prop :=
  List.Forall₂ (fun x y => x.1 = y.1 ∧ table.Expands x.2 y.2) before.1 after.1 ∧
    table.Expands before.2 after.2

/-- References lead from the first schema to the second one. -/
inductive Follows (table : Table) : Schema → Schema → Prop
  | here {s : Schema} : Follows table s s
  | body {name : String} {body t : Schema} : Entries.find? name table = some body →
      Follows table body t → Follows table (.reference name) t

/-- References, also those that are met on the way, are replaced by their bodies. -/
inductive Unfolds (table : Table) : Schema → Schema → Prop
  | node {s t u : Schema} : table.Follows s t → Head Eq t u →
      t.children.length = u.children.length →
      (∀ x ∈ t.children.zip u.children, Unfolds table x.1 x.2) → Unfolds table s u

/-- Two nodes say the same, and the children of the second unfold those of the first. -/
inductive Mirrors (table : Table) : Schema → Schema → Prop
  | primitive {p : Primitive} : Mirrors table (.primitive p) (.primitive p)
  | list {e e' : Schema} : table.Unfolds e e' → Mirrors table (.list e) (.list e')
  | tuple {es es' : List Schema} : List.Forall₂ table.Unfolds es es' →
      Mirrors table (.tuple es) (.tuple es')
  | object {fs gs : List (Field Schema)} {w x : Option Schema} :
      List.Forall₂ (fun f g => f.head = g.head ∧ table.Unfolds f.schema g.schema) fs gs →
      Option.Rel table.Unfolds w x → Mirrors table (.object fs w) (.object gs x)
  | choice {ss ss' : List Schema} : List.Forall₂ table.Unfolds ss ss' →
      Mirrors table (.choice ss) (.choice ss')
  | named {name : String} {body body' : Schema} : table.Unfolds body body' →
      Mirrors table (.named name body) (.named name body')
  | reference {name : String} : Mirrors table (.reference name) (.reference name)
  | literal {v : Value} : Mirrors table (.literal v) (.literal v)

/-- The bodies of the second table unfold those of the first one. -/
def UnfoldsTo (table table' : Table) : Prop :=
  List.Forall₂ (fun x y => x.1 = y.1 ∧ table.Unfolds x.2 y.2) table table'

end Table

/-! ## Nodes that say the same -/

namespace Schema

variable {s t u : Schema}

theorem Head.refl (s : Schema) : Head Eq s s := by
  cases s <;> simp [Head]

theorem Head.trans (h : Head Eq s t) (h' : Head Eq t u) : Head Eq s u := by
  cases s <;> cases t <;> cases u <;> simp_all [Head]

theorem Head.eq_reference {n : String} (h : Head Eq s (.reference n)) : s = .reference n := by
  cases s <;> simp_all [Head]

end Schema

namespace Table

variable {table table' : Table} {s t u : Schema} {name m : String} {body : Schema}

/-! ## Nodes that mirror each other -/

theorem forall₂_fields_iff {Q : Schema → Schema → Prop} {fs gs : List (Field Schema)} :
    List.Forall₂ (fun f g => f.head = g.head ∧ Q f.schema g.schema) fs gs ↔
      fs.map Field.head = gs.map Field.head ∧
        List.Forall₂ Q (fs.map Field.schema) (gs.map Field.schema) := by
  induction fs generalizing gs with
  | nil => cases gs <;> simp
  | cons f fs ih => cases gs <;> simp [ih, and_and_and_comm]

theorem rel_iff_forall₂_toList {Q : Schema → Schema → Prop} {w x : Option Schema} :
    Option.Rel Q w x ↔ w.isSome = x.isSome ∧ List.Forall₂ Q w.toList x.toList := by
  cases w <;> cases x <;> simp

theorem mirrors_of_head (head : Head Eq t u)
    (below : List.Forall₂ table.Unfolds t.children u.children) : table.Mirrors t u := by
  cases t <;> cases u <;> try exact False.elim head
  case primitive.primitive =>
    obtain rfl := head
    exact .primitive
  case list.list => exact .list (List.forall₂_cons.1 below).1
  case tuple.tuple => exact .tuple below
  case object.object =>
    have length := congrArg List.length head.1
    obtain ⟨fields, wildcards⟩ := (Schema.forall₂_append_iff (by simpa using length)).1 below
    exact .object (forall₂_fields_iff.2 ⟨head.1, fields⟩)
      (rel_iff_forall₂_toList.2 ⟨head.2, wildcards⟩)
  case choice.choice => exact .choice below
  case named.named =>
    obtain rfl := head
    exact .named (List.forall₂_cons.1 below).1
  case reference.reference =>
    obtain rfl := head
    exact .reference
  case literal.literal =>
    obtain rfl := head
    exact .literal

/-- To mirror a node is to say the same above children that unfold. -/
theorem mirrors_iff :
    table.Mirrors t u ↔ Head Eq t u ∧ List.Forall₂ table.Unfolds t.children u.children := by
  refine ⟨fun h => ?_, fun h => mirrors_of_head h.1 h.2⟩
  cases h with
  | list unfolds => exact ⟨trivial, .cons unfolds .nil⟩
  | named unfolds => exact ⟨rfl, .cons unfolds .nil⟩
  | tuple each | choice each => exact ⟨trivial, each⟩
  | object fields wildcards =>
      obtain ⟨heads, fields⟩ := forall₂_fields_iff.1 fields
      obtain ⟨both, wildcards⟩ := rel_iff_forall₂_toList.1 wildcards
      exact ⟨⟨heads, both⟩, List.rel_append fields wildcards⟩
  | primitive | reference | literal => exact ⟨.refl _, .nil⟩

/-! ## Steps -/

theorem unfolds_iff : table.Unfolds s u ↔ ∃ t, table.Follows s t ∧ table.Mirrors t u := by
  constructor
  · rintro ⟨follows, head, length, below⟩
    exact ⟨_, follows, mirrors_iff.2 ⟨head, Schema.forall₂_iff_forall_zip.2 ⟨length, below⟩⟩⟩
  · rintro ⟨t, follows, mirrors⟩
    obtain ⟨head, below⟩ := mirrors_iff.1 mirrors
    obtain ⟨length, below⟩ := Schema.forall₂_iff_forall_zip.1 below
    exact .node follows head length below

theorem Unfolds.refl (table : Table) (s : Schema) : table.Unfolds s s := by
  induction s using Schema.children_ind with
  | step s ih => exact unfolds_iff.2 ⟨s, .here, mirrors_iff.2 ⟨.refl s, List.forall₂_same.2 ih⟩⟩

theorem Follows.trans (h : table.Follows s t) (h' : table.Follows t u) : table.Follows s u := by
  induction h with
  | here => exact h'
  | body found _ ih => exact .body found (ih h')

theorem Unfolds.of_follows (h : table.Follows s t) (h' : table.Unfolds t u) :
    table.Unfolds s u := by
  obtain ⟨t, follows, mirrors⟩ := unfolds_iff.1 h'
  exact unfolds_iff.2 ⟨t, h.trans follows, mirrors⟩

theorem Expands.of_children (head : Head Eq s t)
    (below : List.Forall₂ table.Expands s.children t.children) : table.Expands s t :=
  .node head below.length_eq (Schema.forall₂_iff_forall_zip.1 below).2

/-- A step need not replace anything. -/
theorem Expands.refl (s : Schema) : table.Expands s s := by
  induction s using Schema.children_ind with
  | step s ih => exact .of_children (.refl s) (List.forall₂_same.2 ih)

/-- A step more still unfolds the first schema. -/
theorem Unfolds.expands (h : table.Unfolds s t) (step : table.Expands t u) :
    table.Unfolds s u := by
  induction h generalizing u with
  | @node s t' t follows head length below ih =>
      cases step with
      | body found =>
          obtain rfl := head.eq_reference
          exact .of_follows (follows.trans (.body found .here)) (.refl table u)
      | node head' length' below' =>
          refine unfolds_iff.2 ⟨t', follows, mirrors_of_head (head.trans head') ?_⟩
          refine Schema.forall₂_comp (Schema.forall₂_iff_forall_zip.2 ⟨length, fun x mem c => ?_⟩)
            (Schema.forall₂_iff_forall_zip.2 ⟨length', below'⟩)
          exact ih x mem

/-- Any number of steps unfold the table and the root. -/
theorem unfolds_of_steps {root : Schema} {after : Table × Schema}
    (steps : Relation.ReflTransGen table.Step (table, root) after) :
    table.UnfoldsTo after.1 ∧ table.Unfolds root after.2 := by
  induction steps with
  | refl => exact ⟨List.forall₂_same.2 fun x _ => ⟨rfl, .refl table x.2⟩, .refl table root⟩
  | tail _ step ih =>
      refine ⟨Schema.forall₂_comp (ih.1.imp ?_) step.1, ih.2.expands step.2⟩
      rintro x y ⟨same, unfolds⟩ z ⟨same', expands⟩
      exact ⟨same.trans same', unfolds.expands expands⟩

/-! ## Looking up names -/

section

variable {Q : Schema → Schema → Prop}

/-- Tables whose bodies are related one by one have the same names. -/
theorem keys_eq_of_forall₂
    (tables : List.Forall₂ (fun x y => x.1 = y.1 ∧ Q x.2 y.2) table table') :
    table'.keys = table.keys := by
  have names : List.Forall₂ (fun x y : String × Schema => x.1 = y.1) table table' :=
    List.Forall₂.imp (fun _ _ h => h.1) tables
  have keys : List.Forall₂ Eq table.keys table'.keys := by
    rwa [Entries.keys, Entries.keys, List.forall₂_map_left_iff, List.forall₂_map_right_iff]
  exact (List.forall₂_eq_eq_eq ▸ keys : table.keys = table'.keys).symm

/-- What is found under a name in both of them is related, too. -/
theorem rel_find? (tables : List.Forall₂ (fun x y => x.1 = y.1 ∧ Q x.2 y.2) table table')
    (name : String) : Option.Rel Q (Entries.find? name table) (Entries.find? name table') := by
  induction tables with
  | nil => exact .none
  | @cons x y front back head _ ih =>
      obtain ⟨same, related⟩ := head
      rw [Entries.find?_cons, Entries.find?_cons, same]
      by_cases here : y.1 = name
      · rw [if_pos here, if_pos here]
        exact .some related
      · rw [if_neg here, if_neg here]
        exact ih

end

/-- What is found under a name unfolds what was found under it before. -/
theorem UnfoldsTo.exists_find? (tables : table.UnfoldsTo table')
    (found : Entries.find? name table' = some body) :
    ∃ before, Entries.find? name table = some before ∧ table.Unfolds before body := by
  have related := rel_find? tables name
  rw [found] at related
  cases lookup : Entries.find? name table with
  | none => simp [lookup] at related
  | some before => exact ⟨before, rfl, by simpa [lookup] using related⟩

/-- Where an unfolded schema is a reference, the body that comes next still unfolds the
first schema. -/
theorem Unfolds.refer (tables : table.UnfoldsTo table') (h : table.Unfolds s (.reference name))
    (found : Entries.find? name table' = some body) : table.Unfolds s body := by
  obtain ⟨before, lookup, unfolds⟩ := tables.exists_find? found
  obtain ⟨t, follows, mirrors⟩ := unfolds_iff.1 h
  cases mirrors
  exact .of_follows (follows.trans (.body lookup .here)) unfolds

/-- The body of a reference unfolds to whatever else the reference unfolds to. -/
theorem Unfolds.unrefer (found : Entries.find? name table = some body)
    (h : table.Unfolds (.reference name) t) (other : ∀ n, t ≠ .reference n) :
    table.Unfolds body t := by
  obtain ⟨u, follows, mirrors⟩ := unfolds_iff.1 h
  cases follows with
  | here =>
      cases mirrors
      exact absurd rfl (other name)
  | body found' follows =>
      cases found.symm.trans found'
      exact unfolds_iff.2 ⟨u, follows, mirrors⟩

/-- What a schema and its unfolding resolve to say the same, and their children unfold. -/
theorem Unfolds.resolve (tables : table.UnfoldsTo table') (h : table.Unfolds s t)
    {s' t' : Schema} (found : table.resolve s = .ok s') (found' : table'.resolve t = .ok t') :
    table.Mirrors s' t' := by
  have ahead : table.Unfolds s t' :=
    follow_ind (motive := table.Unfolds s) (fun _ _ lookup before => before.refer tables lookup)
      found' h
  have both : table.Unfolds s' t' :=
    follow_ind (motive := fun s => table.Unfolds s t')
      (fun _ _ lookup before => before.unrefer lookup (ne_reference_of_follow found')) found ahead
  obtain ⟨u, follows, mirrors⟩ := unfolds_iff.1 both
  cases follows with
  | here => exact mirrors
  | body => exact absurd rfl (ne_reference_of_follow found _)

/-! ## Checking an unfolded table -/

/-- Every reference anywhere in the schema has a body. -/
def Knows (table : Table) (s : Schema) : Prop :=
  ∀ name, Part (.reference name) s → name ∈ table.keys

theorem Knows.of_follows (bodies : ∀ x ∈ table, table.Knows x.2) (h : table.Follows s t)
    (known : table.Knows s) : table.Knows t := by
  induction h with
  | here => exact known
  | body found _ ih => exact ih (bodies _ (Entries.mem_of_find? found))

/-- A node that says the same knows its names if its children do. -/
theorem Knows.of_head (head : Head Eq s t) (length : s.children.length = t.children.length)
    (each : ∀ x ∈ s.children.zip t.children, table.Knows x.1 → table.Knows x.2)
    (known : table.Knows s) : table.Knows t := by
  intro name part
  rcases Part.iff.1 part with rfl | ⟨c, mem, part⟩
  · exact known name (head.eq_reference ▸ .self)
  · obtain ⟨x, zipped, rfl⟩ := Schema.exists_mem_zip length mem
    have child := (List.of_mem_zip zipped).1
    exact each x zipped (fun m part => known m (.child child part)) name part

/-- No reference comes up that has no body. -/
theorem Knows.of_unfolds (bodies : ∀ x ∈ table, table.Knows x.2) (h : table.Unfolds s u)
    (known : table.Knows s) : table.Knows u := by
  induction h with
  | node follows head length _ ih => exact .of_head head length ih (known.of_follows bodies follows)

/-- A name to which an exposed name leads is one to which the start of the references
leads. -/
theorem Follows.exists_leads (h : table.Follows s t)
    (ahead : ∃ n, Exposes n t ∧ Relation.ReflTransGen table.Leads n m) :
    ∃ n, Exposes n s ∧ Relation.ReflTransGen table.Leads n m := by
  induction h with
  | here => exact ahead
  | body found _ ih =>
      obtain ⟨n, exposes, leads⟩ := ih ahead
      exact ⟨_, .reference, .head (leads_iff.2 ⟨_, found, exposes⟩) leads⟩

/-- A name that a node exposes is one to which a node leads that says the same, if this
holds of their children. -/
theorem exists_leads_of_head (head : Head Eq s t) (length : s.children.length = t.children.length)
    (each : ∀ x ∈ s.children.zip t.children, Exposes m x.2 →
      ∃ n, Exposes n x.1 ∧ Relation.ReflTransGen table.Leads n m) (exposes : Exposes m t) :
    ∃ n, Exposes n s ∧ Relation.ReflTransGen table.Leads n m := by
  cases exposes with
  | reference => exact ⟨m, head.eq_reference ▸ .reference, .refl⟩
  | choice mem exposes =>
      obtain ⟨x, zipped, rfl⟩ := Schema.exists_mem_zip length mem
      obtain ⟨n, exposes, leads⟩ := each x zipped exposes
      cases s with
      | choice alternatives => exact ⟨n, .choice (List.of_mem_zip zipped).1 exposes, leads⟩
      | _ => simp [Head] at head
  | named exposes =>
      cases s with
      | named name body =>
          obtain ⟨n, exposes, leads⟩ := each (body, _) (by simp [Schema.children]) exposes
          exact ⟨n, .named exposes, leads⟩
      | _ => simp [Head] at head

/-- A name that an unfolded schema exposes is one that the first schema leads to. -/
theorem Unfolds.exists_leads (h : table.Unfolds s u) (exposes : Exposes m u) :
    ∃ n, Exposes n s ∧ Relation.ReflTransGen table.Leads n m := by
  induction h with
  | node follows head length _ ih =>
      exact follows.exists_leads (exists_leads_of_head head length ih exposes)

/-- Where an unfolded table leads in one step, the first table leads in some steps. -/
theorem UnfoldsTo.leads (tables : table.UnfoldsTo table') (leads : table'.Leads name m) :
    Relation.TransGen table.Leads name m := by
  obtain ⟨body, found, exposes⟩ := leads_iff.1 leads
  obtain ⟨before, lookup, unfolds⟩ := tables.exists_find? found
  obtain ⟨n, exposes, rest⟩ := unfolds.exists_leads exposes
  exact .head' (leads_iff.2 ⟨before, lookup, exposes⟩) rest

theorem Resolves.knows (resolves : table.Resolves s) : table.Knows s := by
  intro name part
  obtain ⟨t, found⟩ := resolves name part
  exact mem_keys_of_resolve found

/-- A root and a table pass the check if they know their names, and if the names lead
nowhere but where those of a table lead that passes it. -/
theorem verify_of_leads {root root' : Schema} (verified : table.verify root = .ok ())
    (known : table'.Knows root') (knows : ∀ x ∈ table', table'.Knows x.2)
    (leads : ∀ n m, table'.Leads n m → Relation.TransGen table.Leads n m) :
    table'.verify root' = .ok () := by
  obtain ⟨-, bodies, passed⟩ := verify_eq_ok_iff.1 verified
  have closed : table'.Closed := by
    intro name next leads
    obtain ⟨body, found, exposes⟩ := leads_iff.1 leads
    exact knows _ (Entries.mem_of_find? found) next exposes.part
  have acyclic : table'.checkCycles = .ok () := by
    refine (checkCycles_eq_ok_iff closed).2 fun name cycle => ?_
    refine (checkCycles_eq_ok_iff (.of_resolves bodies)).1 passed name ?_
    exact Relation.TransGen.closed leads name name cycle
  obtain ⟨order, ordered, all⟩ := exists_ordered closed acyclic
  have resolves : ∀ {s : Schema}, table'.Knows s → table'.Resolves s :=
    fun known name part => ordered.resolve_eq_ok (all (known name part))
  exact verify_eq_ok_iff.2 ⟨resolves known, fun x mem => resolves (knows x mem), acyclic⟩

/-- What unfolds a table and a root that pass the check passes it, too. -/
theorem UnfoldsTo.verify_eq_ok (tables : table.UnfoldsTo table') {root root' : Schema}
    (unfolds : table.Unfolds root root') (verified : table.verify root = .ok ()) :
    table'.verify root' = .ok () := by
  obtain ⟨resolves, bodies, -⟩ := verify_eq_ok_iff.1 verified
  have knows : ∀ x ∈ table, table.Knows x.2 := fun x mem => (bodies x mem).knows
  have known : ∀ {s t : Schema}, table.Knows s → table.Unfolds s t → table'.Knows t := by
    intro s t known unfolds name part
    exact keys_eq_of_forall₂ tables ▸ known.of_unfolds knows unfolds name part
  refine verify_of_leads verified (known resolves.knows unfolds) (fun y mem => ?_)
    fun _ _ leads => tables.leads leads
  obtain ⟨x, zipped, rfl⟩ := Schema.exists_mem_zip tables.length_eq mem
  have both := (Schema.forall₂_iff_forall_zip.1 tables).2 x zipped
  exact known (knows x.1 (List.of_mem_zip zipped).1) both.2

end Table

/-- Any number of steps from a resolved schema end in a resolved schema. -/
theorem Resolved.exists_of_steps (r : Resolved) {after : Table × Schema}
    (steps : Relation.ReflTransGen r.table.Step (r.table, r.root) after) :
    ∃ r' : Resolved, (r'.table, r'.root) = after ∧ r.table.UnfoldsTo r'.table ∧
      r.table.Unfolds r.root r'.root := by
  obtain ⟨tables, roots⟩ := Table.unfolds_of_steps steps
  exact ⟨⟨after.1, after.2, tables.verify_eq_ok roots r.verified⟩, rfl, tables, roots⟩

end DataShape
