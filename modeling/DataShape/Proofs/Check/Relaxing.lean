import DataShape.Proofs.Check.Validity
import DataShape.Proofs.Value.Equality
import DataShape.Proofs.Walk.Unfolding

/-!
# Relaxed schemas

A schema *relaxes* another one if it comes out of it by admitting null, making keys
optional, adding alternatives to choices, and putting schemas into choices, anywhere
and any number of times.  References stay references to the same names, so what such a
schema means also depends on whether the bodies were relaxed.

The two are kept apart.  With the same bodies on both sides a relaxed schema means no
less, by induction on how it was relaxed (`Relaxes.implies`).  With relaxed bodies every
schema means no less, by induction on why a value conforms (`Table.Meets.of_relaxed`):
where a name is looked up, what is known of the old body passes to the new one by the
first induction.  So nothing need be said about two schemas and two tables at once.

A resolved schema that relaxes another one thus finds every value valid that the
other one does (`Resolved.relaxing_keeps_valid`).
-/

namespace DataShape

open Schema (Head)

namespace Schema

/-- The second schema relaxes the first one. -/
inductive Relaxes : Schema → Schema → Prop
  /-- Null is admitted, too. -/
  | nullable {kind : Kind} : Relaxes (.primitive ⟨kind, false⟩) (.primitive ⟨kind, true⟩)
  /-- A required key becomes optional. -/
  | optional {name : String} {s : Schema} {front back : List (Field Schema)}
      {wildcard : Option Schema} :
      Relaxes (.object (front ++ ⟨name, false, s⟩ :: back) wildcard)
        (.object (front ++ ⟨name, true, s⟩ :: back) wildcard)
  /-- A choice gets an alternative more, at any place. -/
  | insert {s : Schema} {front back : List Schema} :
      Relaxes (.choice (front ++ back)) (.choice (front ++ s :: back))
  /-- A choice takes the place of a schema that one of its alternatives relaxes. -/
  | among {s t : Schema} {alternatives : List Schema} :
      t ∈ alternatives → Relaxes s t → Relaxes s (.choice alternatives)
  /-- A literal is replaced by an equal one. -/
  | literal {a b : Value} : a.same b = true → Relaxes (.literal a) (.literal b)
  /-- What is below a node is relaxed, and the node says the same. -/
  | node {s t : Schema} : Head Eq s t → s.children.length = t.children.length →
      (∀ x ∈ s.children.zip t.children, Relaxes x.1 x.2) → Relaxes s t
  /-- What was relaxed is relaxed further. -/
  | trans {s t u : Schema} : Relaxes s t → Relaxes t u → Relaxes s u

variable {s t : Schema}

theorem Relaxes.of_children (head : Head Eq s t)
    (below : List.Forall₂ Relaxes s.children t.children) : Relaxes s t :=
  .node head below.length_eq (forall₂_iff_forall_zip.1 below).2

/-- Every schema relaxes itself. -/
theorem Relaxes.refl (s : Schema) : Relaxes s s := by
  induction s using children_ind with
  | step s ih => exact .of_children (.refl s) (List.forall₂_same.2 ih)

end Schema

/-! ## With the same bodies -/

namespace Table

/-- Whatever the first schema describes is described by the second one, too. -/
def Implies (table : Table) (s t : Schema) : Prop := ∀ v, table.Meets s v → table.Meets t v

end Table

variable {table table' : Table} {s t : Schema} {v : Value}

/-- A tuple describes the lists that its elements describe item by item. -/
theorem meets_tuple_iff_forall₂ {elements : List Schema} {items : List Value} :
    table.Meets (.tuple elements) (.list items) ↔ List.Forall₂ table.Meets elements items := by
  rw [Schema.forall₂_iff_forall_zip]
  constructor
  · intro h
    cases h with
    | tuple length each => exact ⟨length, each⟩
  · intro h
    exact .tuple h.1 h.2

/-- What an object describes, as far as `P` tells about the values in it, is described by
an object that says the same and asks no more than `P` of these values. -/
theorem meets_object_of_rel {P : Schema → Value → Prop} {fs gs : List (Field Schema)}
    {w x : Option Schema} {entries : Entries Value}
    (fields : List.Forall₂
      (fun f g => f.head = g.head ∧ ∀ v, P f.schema v → table.Meets g.schema v) fs gs)
    (wildcards : Option.Rel (fun s t => ∀ v, P s v → table.Meets t v) w x)
    (required : ∀ f ∈ fs, f.optional = false → f.name ∈ entries.keys)
    (declared : ∀ e ∈ entries, Schema.forKey? fs w e.1 ≠ none)
    (each : ∀ e ∈ entries, ∀ s, Schema.forKey? fs w e.1 = some s → P s e.2) :
    table.Meets (.object gs x) (.dict entries) := by
  refine .object (fun g mem needed => ?_) (fun e mem => ?_) fun e mem t found => ?_
  · obtain ⟨f, inside, head, -⟩ := Schema.exists_mem_of_forall₂ fields.flip mem
    obtain ⟨name, optional⟩ := Prod.mk.inj head
    exact name ▸ required f inside (optional.trans needed)
  · have known := declared e mem
    have related := (forKey?_rel fields wildcards e.1).2
    intro none
    rw [none] at related
    cases h : Schema.forKey? fs w e.1 with
    | none => exact known h
    | some s => simp [h] at related
  · have related := (forKey?_rel fields wildcards e.1).2
    rw [found] at related
    cases h : Schema.forKey? fs w e.1 with
    | none => simp [h] at related
    | some s =>
        rw [h, Option.rel_some_some] at related
        exact related e.2 (each e mem s h)

namespace Table.Implies

theorem tuple {es es' : List Schema} (each : List.Forall₂ table.Implies es es') :
    table.Implies (.tuple es) (.tuple es') := by
  intro v h
  cases v with
  | list items =>
      rw [meets_tuple_iff_forall₂] at h ⊢
      exact Schema.forall₂_comp each.flip h
  | _ => cases h

theorem object {fs gs : List (Field Schema)} {w x : Option Schema}
    (fields : List.Forall₂ (fun f g => f.head = g.head ∧ table.Implies f.schema g.schema) fs gs)
    (wildcards : Option.Rel table.Implies w x) : table.Implies (.object fs w) (.object gs x) := by
  intro v h
  cases h with
  | object required declared each => exact meets_object_of_rel fields wildcards required declared each

theorem choice {ss ts : List Schema} (each : List.Forall₂ table.Implies ss ts) :
    table.Implies (.choice ss) (.choice ts) := by
  intro v h
  obtain ⟨s, mem, met⟩ := meets_choice_iff.1 h
  obtain ⟨t, inside, implies⟩ := Schema.exists_mem_of_forall₂ each mem
  exact .choice inside (implies v met)

/-- A node describes no less if it says the same and its children describe no less. -/
theorem of_head (head : Head Eq s t)
    (below : List.Forall₂ table.Implies s.children t.children) : table.Implies s t := by
  cases s <;> cases t <;> try exact False.elim head
  case primitive.primitive =>
    obtain rfl := head
    exact fun _ => id
  case list.list =>
    intro v h
    cases h with
    | list each => exact .list fun v mem => (List.forall₂_cons.1 below).1 v (each v mem)
  case tuple.tuple => exact tuple below
  case object.object =>
    have length := congrArg List.length head.1
    obtain ⟨fields, wildcards⟩ := (Schema.forall₂_append_iff (by simpa using length)).1 below
    exact object (forall₂_fields_iff.2 ⟨head.1, fields⟩)
      (rel_iff_forall₂_toList.2 ⟨head.2, wildcards⟩)
  case choice.choice => exact choice below
  case named.named =>
    intro v h
    exact .named ((List.forall₂_cons.1 below).1 v (meets_named_iff.1 h))
  case reference.reference =>
    obtain rfl := head
    exact fun _ => id
  case literal.literal =>
    obtain rfl := head
    exact fun _ => id

end Table.Implies

/-- Whether a key is optional says nothing about the values under it. -/
theorem forKey?_optional (front back : List (Field Schema)) (wildcard : Option Schema)
    (name key : String) (s : Schema) :
    Schema.forKey? (front ++ ⟨name, true, s⟩ :: back) wildcard key =
      Schema.forKey? (front ++ ⟨name, false, s⟩ :: back) wildcard key := by
  simp only [Schema.forKey?]
  induction front with
  | nil =>
      simp only [List.nil_append, Field.find?]
      by_cases here : name = key <;> simp [here]
  | cons f front ih =>
      simp only [List.cons_append, Field.find?]
      by_cases here : f.name = key <;> simp [here, ih]

/-- With the same bodies, a relaxed schema describes no less. -/
theorem Schema.Relaxes.implies (relaxes : Relaxes s t) : table.Implies s t := by
  induction relaxes with
  | nullable =>
      intro v h
      cases h with
      | kind accepts => exact .kind accepts
      | null nullable => cases nullable
  | optional =>
      intro v h
      cases h with
      | object required declared each =>
          refine .object (fun f mem needed => ?_) (fun e mem => ?_) fun e mem t found => ?_
          · have inside := List.mem_append.1 mem
            rw [List.mem_cons] at inside
            rcases inside with inside | rfl | inside
            · exact required f (by simp [inside]) needed
            · cases needed
            · exact required f (by simp [inside]) needed
          · exact forKey?_optional _ _ _ _ _ _ ▸ declared e mem
          · exact each e mem t (forKey?_optional _ _ _ _ _ _ ▸ found)
  | @insert s front back =>
      intro v h
      obtain ⟨t, mem, met⟩ := meets_choice_iff.1 h
      refine .choice (s := t) ?_ met
      rw [List.mem_append] at mem
      rw [List.mem_append, List.mem_cons]
      exact mem.imp id .inr
  | among mem _ ih => exact fun v h => .choice mem (ih v h)
  | literal same => exact fun v h => .literal (Value.same_trans (meets_literal_iff.1 h) same)
  | node head length _ ih =>
      exact .of_head head (forall₂_iff_forall_zip.2 ⟨length, ih⟩)
  | trans _ _ first second => exact fun v h => second v (first v h)

/-! ## With relaxed bodies -/

/-- Every name of the first table has a body in the second one, and a relaxed one. -/
def Table.RelaxesTo (table table' : Table) : Prop := ∀ name body,
  Entries.find? name table = some body →
    ∃ body', Entries.find? name table' = some body' ∧ Schema.Relaxes body body'

/-- If every body of the first table has a body in the second one that describes no
less, then every schema describes no less with the bodies of the second table. -/
theorem Table.Meets.of_bodies (bodies : ∀ name body, Entries.find? name table = some body →
      ∃ body', Entries.find? name table' = some body' ∧ table'.Implies body body')
    (h : table.Meets s v) : table'.Meets s v := by
  -- Only at a reference are the bodies looked up, and there the new body takes over what
  -- the induction has found out about the old one.
  induction h with
  | kind accepts => exact .kind accepts
  | null nullable => exact .null nullable
  | list _ ih => exact .list ih
  | tuple length _ ih => exact .tuple length ih
  | object required declared _ ih => exact .object required declared ih
  | choice mem _ ih => exact .choice mem ih
  | named _ ih => exact .named ih
  | reference found _ ih =>
      obtain ⟨body', found', implies⟩ := bodies _ _ found
      exact .reference found' (implies _ ih)
  | literal same => exact .literal same

/-- With relaxed bodies, a schema describes no less. -/
theorem Table.Meets.of_relaxed (bodies : table.RelaxesTo table') (h : table.Meets s v) :
    table'.Meets s v := by
  refine h.of_bodies fun name body found => ?_
  obtain ⟨body', found', relaxes⟩ := bodies name body found
  exact ⟨body', found', relaxes.implies⟩

namespace Resolved

/-- If a resolved schema has all names of another one, a root that relaxes its root and
bodies that relax its bodies, then it finds all values valid that the other one does. -/
theorem relaxing_keeps_valid (r r' : Resolved) (names : r.table.keys ⊆ r'.table.keys)
    (bodies : ∀ name body body', Entries.find? name r.table = some body →
      Entries.find? name r'.table = some body' → Schema.Relaxes body body')
    (root : Schema.Relaxes r.root r'.root) (v : Value)
    (valid : (r.isValid v).result = .ok true) : (r'.isValid v).result = .ok true := by
  have relaxed : r.table.RelaxesTo r'.table := by
    intro name body found
    have known := (Entries.has_iff_mem_keys name r.table).1 (by simp [Entries.has, found])
    obtain ⟨body', found'⟩ := Table.exists_find?_of_mem_keys (names known)
    exact ⟨body', found', bodies name body body' found found'⟩
  have met := r.isValid_eq_ok_true_iff.1 valid
  exact r'.isValid_eq_ok_true_iff.2 (root.implies v (met.of_relaxed relaxed))

/-! ### Trees -/

/-- A tree has a label and a list of what is below it. -/
def treeOf (optional : Bool) (label below : Schema) : Schema :=
  .object [⟨"label", optional, label⟩, ⟨"below", false, .list below⟩] none

/-- Trees with integers for labels. -/
def trees : Resolved :=
  ⟨[("tree", treeOf false (.primitive ⟨.int, false⟩) (.reference "tree"))], .reference "tree", rfl⟩

/-- Trees that may lack a label or have null for it, with texts for leaves. -/
def looseTrees : Resolved :=
  ⟨[("leaf", .primitive ⟨.str, false⟩), ("tree", treeOf true
      (.choice [.literal (.bool true), .primitive ⟨.int, true⟩])
      (.choice [.reference "leaf", .reference "tree"]))],
    .choice [.reference "tree", .reference "leaf"], rfl⟩

/-- Two nested trees. -/
def twoTrees : Value :=
  .dict [("label", .int 1), ("below", .list [.dict [("label", .int 2), ("below", .list [])]])]

/-- Two nested trees stay valid if trees may lack labels and have texts for leaves. -/
theorem looseTrees_keep_twoTrees : (trees.isValid twoTrees).result = .ok true ∧
    (looseTrees.isValid twoTrees).result = .ok true := by
  have label : Schema.Relaxes (.primitive ⟨.int, false⟩)
      (.choice [.literal (.bool true), .primitive ⟨.int, true⟩]) :=
    .among (List.mem_cons_of_mem _ (List.mem_singleton.2 rfl)) .nullable
  have below : Schema.Relaxes (.reference "tree")
      (.choice [.reference "leaf", .reference "tree"]) :=
    .trans (.among (List.mem_singleton.2 rfl) (.refl _)) (@Schema.Relaxes.insert _ [] _)
  have children : Schema.Relaxes
      (treeOf false (.primitive ⟨.int, false⟩) (.reference "tree"))
      (treeOf false (.choice [.literal (.bool true), .primitive ⟨.int, true⟩])
        (.choice [.reference "leaf", .reference "tree"])) :=
    .of_children ⟨rfl, rfl⟩
      (.cons label (.cons (.of_children trivial (.cons below .nil)) .nil))
  have valid : (trees.isValid twoTrees).result = .ok true := rfl
  refine ⟨valid, relaxing_keeps_valid trees looseTrees (by decide) ?_ ?_ twoTrees valid⟩
  · intro name body body' found found'
    obtain ⟨rfl, rfl⟩ : "tree" = name ∧ _ = body := by simpa [trees] using found
    obtain rfl : _ = body' := by simpa [looseTrees] using found'
    exact .trans children (@Schema.Relaxes.optional _ _ [] _ _)
  · exact .among (List.mem_cons_self ..) (.refl _)

end Resolved

end DataShape
