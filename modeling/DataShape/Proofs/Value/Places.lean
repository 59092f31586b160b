import Mathlib.Data.List.Nodup
import DataShape.Path
import DataShape.Proofs.Schema.Like
import DataShape.Proofs.Value.Tree

/-!
# Places in values

A path leads from a value to a value that stands somewhere in it (`At`).  If no key comes
twice in a dictionary, then only one value stands at a path (`At.unique`).

Two values are *alike* if nothing differs at their roots: they are the same scalar, or
containers of one kind with the same places.  They have one *shape* if they differ in
nothing but scalars, at all depths.
-/

namespace DataShape

/-! ## Paths -/

/-- One path lies a number of steps behind another one. -/
inductive Path.Behind : Nat → Path → Path → Prop
  | here {p : Path} : Behind 0 p p
  | index {n : Nat} {p q : Path} {i : Nat} : Behind n p q → Behind (n + 1) p (q.index i)
  | key {n : Nat} {p q : Path} {name : String} : Behind n p q → Behind (n + 1) p (q.key name)

/-- The number of steps of a path. -/
def Path.depth : Path → Nat
  | .base _ => 0
  | .index parent _ => parent.depth + 1
  | .key parent _ => parent.depth + 1

namespace Path.Behind

variable {n m : Nat} {p q r : Path}

theorem depth_eq (h : Behind n p q) : q.depth = p.depth + n := by
  induction h with
  | here => rfl
  | index _ ih => simp [depth, ih, Nat.add_assoc]
  | key _ ih => simp [depth, ih, Nat.add_assoc]

theorem trans (h : Behind n p q) (h' : Behind m q r) : Behind (n + m) p r := by
  induction h' with
  | here => exact h
  | index _ ih => exact .index (ih h)
  | key _ ih => exact .key (ih h)

/-- What lies a number of steps before a path is one path. -/
theorem unique (h : Behind n p r) (h' : Behind n q r) : p = q := by
  induction h with
  | here =>
      cases h'
      rfl
  | index _ ih =>
      cases h' with
      | index h' => exact ih h'
  | key _ ih =>
      cases h' with
      | key h' => exact ih h'

/-- A path lies behind one of the next paths only. -/
theorem next_unique {q' : Path} (next : Behind 1 p q) (h : Behind n q r) (next' : Behind 1 p q')
    (h' : Behind m q' r) : q = q' := by
  have depth := h.depth_eq
  rw [h'.depth_eq, next.depth_eq, next'.depth_eq] at depth
  obtain rfl : n = m := by omega
  exact h.unique h'

end Path.Behind

namespace Value

/-! ## Definitions -/

/-- The children of a value at a path, with the paths to them. -/
def places (path : Path) : Value → List (Path × Value)
  | .list items => items.zipIdx.map fun (item, i) => (path.index i, item)
  | .dict entries => entries.map fun (key, value) => (path.key key, value)
  | _ => []

/-- A value stands at `q` in the value that stands at `p`. -/
inductive At : Path → Value → Path → Value → Prop
  | here {p : Path} {v : Value} : At p v p v
  | inside {p q r : Path} {v c u : Value} : (q, c) ∈ v.places p → At q c r u → At p v r u

/-- Whether a value is a scalar other than null. -/
def isScalar : Value → Bool
  | .null | .list _ | .dict _ => false
  | _ => true

/-- Nothing differs between the values, apart from what is in containers. -/
def Alike : Value → Value → Prop
  | .list as, .list bs => as.length = bs.length
  | .dict as, .dict bs => Entries.keys as = Entries.keys bs
  | a, b => a = b

/-- Values that differ in nothing but scalars.  Lists have the same lengths, dictionaries
the same keys in the same order, and null stays null. -/
inductive Shaped : Value → Value → Prop
  | null : Shaped .null .null
  | scalar {a b : Value} : a.isScalar = true → b.isScalar = true → Shaped a b
  | list {as bs : List Value} : as.length = bs.length → (∀ x ∈ as.zip bs, Shaped x.1 x.2) →
      Shaped (.list as) (.list bs)
  | dict {as bs : List (String × Value)} : Entries.keys as = Entries.keys bs →
      (∀ x ∈ as.zip bs, Shaped x.1.2 x.2.2) → Shaped (.dict as) (.dict bs)

variable {p q r : Path} {v w c u x : Value} {items : List Value} {entries : List (String × Value)}

/-! ## Places -/

theorem mem_places_list_iff : (q, c) ∈ (Value.list items).places p ↔
    ∃ i, items[i]? = some c ∧ q = p.index i := by
  simp only [places, List.mem_map, Prod.exists, List.mk_mem_zipIdx_iff_getElem?, Prod.mk.injEq]
  constructor
  · rintro ⟨item, i, found, rfl, rfl⟩
    exact ⟨i, found, rfl⟩
  · rintro ⟨i, found, rfl⟩
    exact ⟨c, i, found, rfl, rfl⟩

theorem mem_places_dict_iff : (q, c) ∈ (Value.dict entries).places p ↔
    ∃ key, (key, c) ∈ entries ∧ q = p.key key := by
  simp only [places, List.mem_map, Prod.exists, Prod.mk.injEq]
  constructor
  · rintro ⟨key, value, mem, rfl, rfl⟩
    exact ⟨key, mem, rfl⟩
  · rintro ⟨key, mem, rfl⟩
    exact ⟨key, c, mem, rfl, rfl⟩

/-- A place is one step behind. -/
theorem behind_of_mem_places (mem : (q, c) ∈ v.places p) : Path.Behind 1 p q := by
  cases v with
  | list items =>
      obtain ⟨i, -, rfl⟩ := mem_places_list_iff.1 mem
      exact .index .here
  | dict entries =>
      obtain ⟨key, -, rfl⟩ := mem_places_dict_iff.1 mem
      exact .key .here
  | _ => cases mem

theorem map_snd_places (p : Path) (v : Value) : (v.places p).map Prod.snd = v.children := by
  cases v with
  | list items => simp [places, children, Function.comp_def]
  | dict entries => simp [places, children, Function.comp_def]
  | _ => rfl

theorem mem_children_of_mem_places (mem : (q, c) ∈ v.places p) : c ∈ v.children :=
  map_snd_places p v ▸ List.mem_map_of_mem mem

theorem places_eq_nil (scalar : v.isScalar = true) : v.places p = [] := by
  cases v with
  | null | list | dict => cases scalar
  | _ => rfl

/-- No key comes twice in a scalar. -/
theorem distinct_of_isScalar (scalar : v.isScalar = true) : v.Distinct := by
  rw [Distinct, each_iff]
  cases v with
  | null | list | dict => cases scalar
  | _ => simp [children]

/-- The places of a distinct value are different from each other. -/
theorem Distinct.nodup_places (distinct : v.Distinct) (p : Path) :
    ((v.places p).map Prod.fst).Nodup := by
  cases v with
  | list items =>
      have paths : (places p (.list items)).map Prod.fst =
          (items.zipIdx.map Prod.snd).map p.index := by
        rw [places, List.map_map, List.map_map]
        rfl
      rw [paths, List.zipIdx_map_snd]
      exact List.Nodup.map (fun i j same => (Path.index.inj same).2) List.nodup_range'
  | dict entries =>
      have paths : (places p (.dict entries)).map Prod.fst = (Entries.keys entries).map p.key := by
        rw [places, Entries.keys, List.map_map, List.map_map]
        rfl
      rw [paths]
      exact List.Nodup.map (fun key key' same => (Path.key.inj same).2)
        (distinct_dict_iff.1 distinct).1
  | _ => exact .nil

/-- In a distinct value, only one child stands at a place. -/
theorem Distinct.place_unique (distinct : v.Distinct) (mem : (q, c) ∈ v.places p)
    (mem' : (q, u) ∈ v.places p) : c = u :=
  congrArg Prod.snd (List.inj_on_of_nodup_map (distinct.nodup_places p) mem mem' rfl)

namespace At

theorem behind (h : At p v q u) : ∃ n, Path.Behind n p q := by
  induction h with
  | here => exact ⟨0, .here⟩
  | inside mem _ ih =>
      obtain ⟨n, behind⟩ := ih
      exact ⟨1 + n, (behind_of_mem_places mem).trans behind⟩

theorem trans (h : At p v q u) (h' : At q u r x) : At p v r x := by
  induction h with
  | here => exact h'
  | inside mem _ ih => exact .inside mem (ih h')

/-- In a distinct value, only one value stands at a path. -/
theorem unique (h : At p v q u) (h' : At p v q x) (distinct : v.Distinct) : u = x := by
  -- The way to `q` goes through one child, since the paths to the children are of one depth.
  have ahead : ∀ {p q : Path} {v c u : Value}, (q, c) ∈ v.places p → ¬ At q c p u := by
    intro p q v c u mem h
    obtain ⟨n, behind⟩ := h.behind
    have one := (behind_of_mem_places mem).depth_eq
    have more := behind.depth_eq
    omega
  induction h with
  | here =>
      cases h' with
      | here => rfl
      | inside mem h' => exact absurd h' (ahead mem)
  | @inside p q₁ r v c u mem h ih =>
      cases h' with
      | here => exact absurd h (ahead mem)
      | @inside _ q₂ _ _ c' _ mem' h' =>
          obtain ⟨_, behind⟩ := h.behind
          obtain ⟨_, behind'⟩ := h'.behind
          obtain rfl := (behind_of_mem_places mem).next_unique behind
            (behind_of_mem_places mem') behind'
          obtain rfl := distinct.place_unique mem mem'
          exact ih h' ((each_iff.1 distinct).2 c (mem_children_of_mem_places mem))

end At

/-! ## Alike values -/

theorem Alike.refl (v : Value) : v.Alike v := by
  cases v <;> exact rfl

/-- Values of different kinds are not alike. -/
theorem Alike.kind_eq (h : v.Alike w) : v.kind = w.kind := by
  cases v with
  | list as =>
      cases w with
      | list bs => rfl
      | _ => cases h
  | dict as =>
      cases w with
      | dict bs => rfl
      | _ => cases h
  | _ => exact congrArg kind h

/-! ## Values of one shape -/

/-- Entries that are related one by one have the same keys and related values. -/
theorem forall₂_entries_iff {P : Value → Value → Prop} {as bs : List (String × Value)} :
    List.Forall₂ (fun e e' => e.1 = e'.1 ∧ P e.2 e'.2) as bs ↔
    Entries.keys as = Entries.keys bs ∧ ∀ x ∈ as.zip bs, P x.1.2 x.2.2 := by
  induction as generalizing bs with
  | nil => cases bs <;> simp [Entries.keys]
  | cons e as ih =>
      cases bs with
      | nil => simp [Entries.keys]
      | cons e' bs =>
          simp only [List.forall₂_cons, ih, Entries.keys, List.map_cons, List.cons.injEq,
            List.zip_cons_cons, List.forall_mem_cons]
          exact and_and_and_comm

theorem Shaped.of_items {as bs : List Value} (each : List.Forall₂ Shaped as bs) :
    (Value.list as).Shaped (.list bs) :=
  .list each.length_eq (Schema.forall₂_iff_forall_zip.1 each).2

theorem Shaped.of_entries {as bs : List (String × Value)}
    (each : List.Forall₂ (fun e e' => e.1 = e'.1 ∧ Shaped e.2 e'.2) as bs) :
    (Value.dict as).Shaped (.dict bs) :=
  .dict (forall₂_entries_iff.1 each).1 (forall₂_entries_iff.1 each).2

/-- Alike values have one shape if their children have, one by one. -/
theorem Alike.shaped (h : v.Alike w) (below : List.Forall₂ Shaped v.children w.children) :
    v.Shaped w := by
  cases v with
  | null =>
      obtain rfl : .null = w := h
      exact .null
  | list as =>
      cases w with
      | list bs => exact .of_items below
      | _ => cases h
  | dict as =>
      cases w with
      | dict bs =>
          rw [children, children, List.forall₂_map_left_iff, List.forall₂_map_right_iff] at below
          exact .dict h (Schema.forall₂_iff_forall_zip.1 below).2
      | _ => cases h
  | _ =>
      cases h
      exact .scalar rfl rfl

theorem Shaped.refl (v : Value) : v.Shaped v := by
  induction v with
  | list items ih => exact (Alike.refl _).shaped (List.forall₂_same.2 ih)
  | dict entries ih =>
      exact (Alike.refl _).shaped (List.forall₂_same.2 (List.forall_mem_map.2 ih))
  | _ => exact (Alike.refl _).shaped .nil

/-- Values that have the shape of one value have the same shape. -/
theorem Shaped.join (h : v.Shaped w) (h' : v.Shaped u) : w.Shaped u := by
  induction h generalizing u with
  | null => exact h'
  | @scalar a b before after =>
      cases h' with
      | scalar _ after' => exact .scalar after after'
      | _ => cases before
  | @list as bs length _ ih =>
      have back : List.Forall₂ (fun a b => ∀ c, Shaped a c → Shaped b c) as bs :=
        Schema.forall₂_iff_forall_zip.2 ⟨length, fun x mem c => ih x mem⟩
      cases h' with
      | scalar scalar => cases scalar
      | list length' each' =>
          exact .of_items
            (Schema.forall₂_comp back.flip (Schema.forall₂_iff_forall_zip.2 ⟨length', each'⟩))
  | @dict as bs keys _ ih =>
      cases h' with
      | scalar scalar => cases scalar
      | dict keys' each' =>
          have back :=
            (forall₂_entries_iff (P := fun a b => ∀ c, Shaped a c → Shaped b c)).2
              ⟨keys, fun x mem c => ih x mem⟩
          have back : List.Forall₂ (fun e' e : String × Value => ∀ x : String × Value,
              e.1 = x.1 ∧ Shaped e.2 x.2 → e'.1 = x.1 ∧ Shaped e'.2 x.2) bs as :=
            back.flip.imp fun _ _ h x h' => ⟨h.1.symm.trans h'.1, h.2 x.2 h'.2⟩
          exact .of_entries (Schema.forall₂_comp back (forall₂_entries_iff.2 ⟨keys', each'⟩))

/-- A value of the same shape is distinct, too. -/
theorem Shaped.distinct (h : v.Shaped w) (distinct : v.Distinct) : w.Distinct := by
  induction h with
  | null => exact distinct
  | scalar _ scalar => exact distinct_of_isScalar scalar
  | list length below ih =>
      refine distinct_list_iff.2 fun b mem => ?_
      obtain ⟨x, zipped, rfl⟩ := Schema.exists_mem_zip length mem
      exact ih x zipped (distinct_list_iff.1 distinct x.1 (List.of_mem_zip zipped).1)
  | dict keys below ih =>
      obtain ⟨nodup, each⟩ := distinct_dict_iff.1 distinct
      refine distinct_dict_iff.2 ⟨keys ▸ nodup, fun b mem => ?_⟩
      have length : _ = _ := congrArg List.length keys
      rw [Entries.keys, Entries.keys, List.length_map, List.length_map] at length
      obtain ⟨x, zipped, rfl⟩ := Schema.exists_mem_zip length mem
      exact ih x zipped (each x.1 (List.of_mem_zip zipped).1)

end Value

end DataShape
