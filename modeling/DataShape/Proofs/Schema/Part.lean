import Mathlib.Algebra.Order.BigOperators.Group.List
import Mathlib.Algebra.GroupWithZero.Nat
import Mathlib.Algebra.Order.Group.Nat
import DataShape.Names.Verify

/-!
# Parts of schemas

`children` lists the schemas directly below a schema, from left to right with the
wildcard last.  A *part* of a schema is the schema itself or a part of one of its
children.  Most facts about schemas need not tell one constructor from another
and only say something about all children, or about all parts.

A schema *exposes* a name if a reference to it stands where only choices and
named types are above it.  These are the references that a walk meets without
consuming any part of a value, and `unnested` lists them.
-/

namespace DataShape

namespace Schema

/-! ## Induction -/

/-- Induction over schemas with one case for each constructor, where the cases
with several schemas below speak of all of them. -/
@[induction_eliminator]
theorem ind {motive : Schema → Prop}
    (primitive : ∀ p, motive (.primitive p))
    (list : ∀ element, motive element → motive (.list element))
    (tuple : ∀ elements, (∀ s ∈ elements, motive s) → motive (.tuple elements))
    (object : ∀ fields wildcard, (∀ f ∈ fields, motive f.schema) →
      (∀ s, wildcard = some s → motive s) → motive (.object fields wildcard))
    (choice : ∀ alternatives, (∀ s ∈ alternatives, motive s) → motive (.choice alternatives))
    (named : ∀ name body, motive body → motive (.named name body))
    (reference : ∀ name, motive (.reference name))
    (literal : ∀ value, motive (.literal value)) : ∀ s, motive s := fun s =>
  @Schema.rec motive (fun ss => ∀ s ∈ ss, motive s) (fun fs => ∀ f ∈ fs, motive f.schema)
    (fun w => ∀ s, w = some s → motive s) (fun f => motive f.schema)
    primitive list tuple object choice named reference literal
    (fun _ h => nomatch h)
    (fun _ _ head tail _ h => by
      rcases List.mem_cons.1 h with rfl | h
      · exact head
      · exact tail _ h)
    (fun _ h => nomatch h)
    (fun _ _ head tail _ h => by
      rcases List.mem_cons.1 h with rfl | h
      · exact head
      · exact tail _ h)
    (fun _ h => nomatch h)
    (fun _ body _ h => Option.some.inj h ▸ body)
    (fun _ _ _ body => body) s

/-! ## Children and parts -/

/-- The schemas directly below a schema. -/
def children : Schema → List Schema
  | .list element => [element]
  | .tuple elements => elements
  | .object fields wildcard => fields.map Field.schema ++ wildcard.toList
  | .choice alternatives => alternatives
  | .named _ body => [body]
  | _ => []

/-- The first schema is the second or stands somewhere in it. -/
inductive Part (t : Schema) : Schema → Prop
  | self : Part t t
  | child {c s : Schema} : c ∈ s.children → Part t c → Part t s

/-- What holds of a schema whenever it holds of its children holds of every schema. -/
theorem children_ind {motive : Schema → Prop}
    (step : ∀ s, (∀ c ∈ s.children, motive c) → motive s) (s : Schema) : motive s := by
  induction s with
  | primitive p => exact step _ (fun c h => nomatch h)
  | list element ih => exact step _ (by simpa [children] using ih)
  | tuple elements ih => exact step _ ih
  | object fields wildcard fieldsIh wildcardIh =>
      apply step
      intro c h
      simp only [children, List.mem_append, List.mem_map, Option.mem_toList] at h
      rcases h with ⟨f, hf, rfl⟩ | h
      · exact fieldsIh f hf
      · exact wildcardIh c h
  | choice alternatives ih => exact step _ ih
  | named name body ih => exact step _ (by simpa [children] using ih)
  | reference name => exact step _ (fun c h => nomatch h)
  | literal value => exact step _ (fun c h => nomatch h)

namespace Part

theorem trans {s t u : Schema} (inner : Part s t) (outer : Part t u) : Part s u := by
  induction outer with
  | self => exact inner
  | child mem _ ih => exact .child mem ih

theorem of_mem {c s : Schema} (mem : c ∈ s.children) : Part c s := .child mem .self

/-- The parts of a schema are the schema and the parts of its children. -/
theorem iff {t s : Schema} : Part t s ↔ t = s ∨ ∃ c ∈ s.children, Part t c := by
  constructor
  · intro h
    cases h with
    | self => exact .inl rfl
    | child mem part => exact .inr ⟨_, mem, part⟩
  · rintro (rfl | ⟨c, mem, part⟩)
    · exact .self
    · exact .child mem part

end Part

/-- A property holds of a schema and of everything in it. -/
def Throughout (P : Schema → Prop) (s : Schema) : Prop := ∀ t, Part t s → P t

namespace Throughout

variable {P : Schema → Prop} {c s : Schema}

theorem child (h : s.Throughout P) (mem : c ∈ s.children) : c.Throughout P :=
  fun t part => h t (.child mem part)

theorem of_children (here : P s) (below : ∀ c ∈ s.children, c.Throughout P) : s.Throughout P := by
  intro t part
  cases part with
  | self => exact here
  | child mem part => exact below _ mem t part

end Throughout

/-! ## Sizes -/

theorem sizeAll_eq_sum (ss : List Schema) : sizeAll ss = (ss.map size).sum := by
  induction ss with
  | nil => rfl
  | cons s ss ih => simp [sizeAll, ih]

theorem sizeFields_eq_sum (fs : List (Field Schema)) :
    sizeFields fs = (fs.map fun f => f.schema.size).sum := by
  induction fs with
  | nil => rfl
  | cons f fs ih => simp [sizeFields, ih]

/-- A schema has one node more than its children together. -/
theorem size_eq (s : Schema) : s.size = (s.children.map size).sum + 1 := by
  cases s with
  | object fields wildcard =>
      cases wildcard <;>
        simp [size, children, sizeFields_eq_sum, sizeWildcard, Function.comp_def]
  | _ => simp [size, children, sizeAll_eq_sum]

theorem size_lt_of_mem_children {c s : Schema} (mem : c ∈ s.children) : c.size < s.size := by
  have h : c.size ≤ (s.children.map size).sum :=
    List.le_sum_of_mem (List.mem_map_of_mem mem)
  rw [size_eq s]
  omega

/-- A part is no larger than the whole. -/
theorem Part.size_le {t s : Schema} (part : Part t s) : t.size ≤ s.size := by
  induction part with
  | self => exact Nat.le_refl _
  | child mem _ ih => exact Nat.le_of_lt (Nat.lt_of_le_of_lt ih (size_lt_of_mem_children mem))

/-! ## Exposed names -/

/-- A reference to the name stands where only choices and named types are above it. -/
inductive Exposes (m : String) : Schema → Prop
  | reference : Exposes m (.reference m)
  | choice {s : Schema} {alternatives : List Schema} :
      s ∈ alternatives → Exposes m s → Exposes m (.choice alternatives)
  | named {name : String} {body : Schema} : Exposes m body → Exposes m (.named name body)

/-- An exposed name is one that a reference in the schema stands for. -/
theorem Exposes.part {m : String} {s : Schema} (h : Exposes m s) : Part (.reference m) s := by
  induction h with
  | reference => exact .self
  | choice mem _ ih => exact .child mem ih
  | named _ ih => exact .child (by simp [children]) ih

theorem mem_unnestedAll {m : String} {ss : List Schema} :
    m ∈ unnestedAll ss ↔ ∃ s ∈ ss, m ∈ s.unnested := by
  induction ss with
  | nil => simp [unnestedAll]
  | cons s ss ih => simp [unnestedAll, ih]

/-- `unnested` lists exactly the exposed names. -/
theorem mem_unnested_iff {m : String} {s : Schema} : m ∈ s.unnested ↔ Exposes m s := by
  constructor
  · intro h
    induction s with
    | choice alternatives ih =>
        rw [unnested, mem_unnestedAll] at h
        obtain ⟨s, mem, hs⟩ := h
        exact .choice mem (ih s mem hs)
    | named name body ih => exact .named (ih (by simpa [unnested] using h))
    | reference name =>
        obtain rfl : m = name := by simpa [unnested] using h
        exact .reference
    | primitive | list | tuple | object | literal => simp [unnested] at h
  · intro h
    induction h with
    | reference => simp [unnested]
    | choice mem _ ih => exact mem_unnestedAll.2 ⟨_, mem, ih⟩
    | named _ ih => simpa [unnested] using ih

end Schema

end DataShape
