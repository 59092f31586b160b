import DataShape.Value.Basic

/-!
# Parts of values

`children` lists the values directly below a value.  A *part* of a value is the
value itself or a part of one of its children.  A value is *finite* if all floats in
it are, and *distinct* if no key comes twice in any dictionary in it.
-/

namespace DataShape.Value

/-! ## Induction -/

/-- Induction over values with one case for each constructor. -/
@[induction_eliminator]
theorem ind {motive : Value → Prop}
    (null : motive .null) (bool : ∀ b, motive (.bool b)) (int : ∀ i, motive (.int i))
    (float : ∀ x, motive (.float x)) (str : ∀ s, motive (.str s))
    (list : ∀ items, (∀ v ∈ items, motive v) → motive (.list items))
    (dict : ∀ entries, (∀ e ∈ entries, motive e.2) → motive (.dict entries)) :
    ∀ v, motive v := fun v =>
  @Value.rec motive (fun items => ∀ v ∈ items, motive v) (fun entries => ∀ e ∈ entries, motive e.2)
    (fun e => motive e.2)
    null bool int float str list dict
    (fun _ h => nomatch h)
    (fun _ _ head tail _ h => by
      rcases List.mem_cons.1 h with rfl | h
      · exact head
      · exact tail _ h)
    (fun _ h => nomatch h)
    (fun _ _ head tail _ h => by
      rcases List.mem_cons.1 h with rfl | h
      · exact head
      · exact tail _ h)
    (fun _ _ body => body) v

/-! ## Children and parts -/

/-- The values directly below a value. -/
def children : Value → List Value
  | .list items => items
  | .dict entries => entries.map Prod.snd
  | _ => []

/-- The first value is the second or stands somewhere in it. -/
inductive Part (u : Value) : Value → Prop
  | self : Part u u
  | child {c v : Value} : c ∈ v.children → Part u c → Part u v

/-- Something holds of every part of the value. -/
def Each (P : Value → Prop) (v : Value) : Prop := ∀ u, Part u v → P u

/-- Every float in the value is finite. -/
def Finite : Value → Prop := Each fun u => ∀ x, u = .float x → x.isFinite = true

/-- No dictionary in the value has a key twice. -/
def Distinct : Value → Prop := Each fun u => ∀ es, u = .dict es → (Entries.keys es).Nodup

theorem each_iff {P : Value → Prop} {v : Value} :
    v.Each P ↔ P v ∧ ∀ c ∈ v.children, c.Each P := by
  constructor
  · intro each
    exact ⟨each v .self, fun c mem u part => each u (.child mem part)⟩
  · intro ⟨here, below⟩ u part
    cases part with
    | self => exact here
    | child mem part => exact below _ mem u part

section

variable {items : List Value} {entries : List (String × Value)} {x : Float}

theorem finite_leaf {v : Value} (leaf : v.children = []) (other : ∀ x, v ≠ .float x) :
    v.Finite := by
  rw [Finite, each_iff, leaf]
  exact ⟨fun x eq => absurd eq (other x), by simp⟩

theorem finite_float_iff : (Value.float x).Finite ↔ x.isFinite = true := by
  simp [Finite, each_iff (v := .float x), children]

theorem finite_list_iff : (Value.list items).Finite ↔ ∀ v ∈ items, v.Finite := by
  simp [Finite, each_iff (v := .list items), children]

theorem finite_dict_iff : (Value.dict entries).Finite ↔ ∀ e ∈ entries, e.2.Finite := by
  simp only [Finite, each_iff (v := .dict entries), children, List.forall_mem_map, reduceCtorEq,
    false_implies, implies_true, true_and]

theorem distinct_list_iff : (Value.list items).Distinct ↔ ∀ v ∈ items, v.Distinct := by
  simp [Distinct, each_iff (v := .list items), children]

theorem distinct_dict_iff : (Value.dict entries).Distinct ↔
    (Entries.keys entries).Nodup ∧ ∀ e ∈ entries, e.2.Distinct := by
  simp only [Distinct, each_iff (v := .dict entries), children, List.forall_mem_map,
    dict.injEq, forall_eq']

end

/-! ## Equality -/

/-- A list is compared item by item with what is made of it. -/
theorem sameItems_map_iff {f : Value → Value} {items : List Value} :
    sameItems (items.map f) items = true ↔ ∀ v ∈ items, (f v).same v = true := by
  induction items with
  | nil => simp [sameItems]
  | cons v items ih =>
      rw [List.map_cons, sameItems, Bool.and_eq_true, ih, List.forall_mem_cons]

theorem sameEntries_iff {as bs : List (String × Value)} : sameEntries as bs = true ↔
    ∀ e ∈ as, ∃ b, Entries.find? e.1 bs = some b ∧ e.2.same b = true := by
  induction as with
  | nil => simp [sameEntries]
  | cons a as ih =>
      obtain ⟨key, a⟩ := a
      simp only [sameEntries, Bool.and_eq_true, ih, List.forall_mem_cons]
      cases Entries.find? key bs <;> simp

/-- A dictionary is compared entry by entry with what is made of it, since the keys
are the same. -/
theorem sameEntries_map_iff {f : Value → Value} {entries : List (String × Value)}
    (distinct : (Entries.keys entries).Nodup) :
    sameEntries (entries.map fun e => (e.1, f e.2)) entries = true ↔
      ∀ e ∈ entries, (f e.2).same e.2 = true := by
  rw [sameEntries_iff, List.forall_mem_map]
  refine forall₂_congr fun e mem => ?_
  rw [(Entries.find?_eq_some_iff distinct).2 mem]
  simp

end DataShape.Value
