import Mathlib.Data.List.Perm.Basic
import DataShape.Proofs.Value.Equality
import DataShape.Proofs.Value.Places

/-!
# Values with rearranged keys

Two values are *rearranged* if they differ in the order of keys only, at all depths, and in
scalars that stand for each other.  With equality for the scalars this is to reorder keys
and to change nothing else.  With equality of values for them it is equality of values
(`Rearranged.of_same`), as dictionaries are compared without their order.

Of all rearrangements of a value only one has the shape of a given value
(`Rearranged.unique`), since the shape gives the order of the keys.
-/

namespace DataShape.Value

/-! ## Definitions -/

/-- The values are the same, up to the order of keys and up to scalars that `R` relates. -/
inductive Rearranged (R : Value → Value → Prop) : Value → Value → Prop
  | null : Rearranged R .null .null
  | scalar {a b : Value} : a.isScalar = true → b.isScalar = true → R a b → Rearranged R a b
  | list {as bs : List Value} : as.length = bs.length →
      (∀ x ∈ as.zip bs, Rearranged R x.1 x.2) → Rearranged R (.list as) (.list bs)
  /-- The entries are related one by one, and then they come in another order. -/
  | dict {as bs cs : List (String × Value)} : Entries.keys as = Entries.keys bs →
      (∀ x ∈ as.zip bs, Rearranged R x.1.2 x.2.2) → bs.Perm cs → Rearranged R (.dict as) (.dict cs)

/-- Related scalars are of one kind, and they equal the same values. -/
structure Twins (R : Value → Value → Prop) : Prop where
  kind_eq : ∀ {a b}, R a b → a.kind = b.kind
  same_eq : ∀ {a b}, a.isScalar = true → b.isScalar = true → R a b → ∀ c, a.same c = b.same c

variable {R : Value → Value → Prop} {v w u u' : Value}

/-! ## Twins -/

theorem twins_eq : Twins Eq where
  kind_eq same := congrArg kind same
  same_eq _ _ same c := congrArg (·.same c) same

theorem kind_eq_of_same (h : v.same w = true) : v.kind = w.kind := by
  cases v <;> cases w <;> first | rfl | cases h

theorem same_symm_of_isScalar (scalar : v.isScalar = true) (h : v.same w = true) :
    w.same v = true := by
  cases v with
  | null | list | dict => cases scalar
  | float x =>
      cases w with
      | float y => exact float_beq_symm h
      | _ => cases h
  | _ =>
      cases w <;> simp only [same, Bool.false_eq_true, beq_iff_eq] at h ⊢
      exact h.symm

theorem twins_same : Twins fun a b => a.same b = true where
  kind_eq := kind_eq_of_same
  same_eq scalar _ h _ := Bool.eq_iff_iff.2
    ⟨same_trans (same_symm_of_isScalar scalar h), same_trans h⟩

theorem Twins.flip (twins : Twins R) : Twins (flip R) where
  kind_eq related := (twins.kind_eq related).symm
  same_eq scalar scalar' related c := (twins.same_eq scalar' scalar related c).symm

/-! ## Entries -/

section Entries

variable {P : Value → Value → Prop} {as bs cs : List (String × Value)}

theorem key_eq_of_mem_zip (keys : Entries.keys as = Entries.keys bs)
    {x : (String × Value) × (String × Value)} (mem : x ∈ as.zip bs) : x.1.1 = x.2.1 := by
  have each := (forall₂_entries_iff (P := fun _ _ => True)).2 ⟨keys, fun _ _ => trivial⟩
  exact ((Schema.forall₂_iff_forall_zip.1 each).2 x mem).1

theorem mem_zip_getElem {α β : Type} {as : List α} {bs : List β} {i : Nat} (h : i < as.length)
    (h' : i < bs.length) : (as[i], bs[i]) ∈ as.zip bs :=
  List.mem_iff_getElem.2 ⟨i, by simp [h, h'], by simp⟩

theorem exists_forall₂_subset {α β : Type} {P : α → β → Prop} {as : List α} {cs : List β}
    (each : ∀ a ∈ as, ∃ c ∈ cs, P a c) : ∃ bs, List.Forall₂ P as bs ∧ bs ⊆ cs := by
  induction as with
  | nil => exact ⟨[], .nil, List.nil_subset _⟩
  | cons a as ih =>
      obtain ⟨⟨c, mem, related⟩, each⟩ := List.forall_mem_cons.1 each
      obtain ⟨bs, rest, subset⟩ := ih each
      exact ⟨c :: bs, .cons related rest, List.cons_subset.2 ⟨mem, subset⟩⟩

theorem sameItems_congr {as bs : List Value}
    (each : List.Forall₂ (fun a b : Value => ∀ c, a.same c = b.same c) as bs) (cs : List Value) :
    sameItems as cs = sameItems bs cs := by
  induction each generalizing cs with
  | nil => rfl
  | cons head _ ih =>
      cases cs with
      | nil => rfl
      | cons c cs => rw [sameItems, sameItems, head, ih]

theorem sameEntries_congr (each : List.Forall₂
      (fun e e' : String × Value => e.1 = e'.1 ∧ ∀ c, e.2.same c = e'.2.same c) as bs) :
    sameEntries as cs = sameEntries bs cs := by
  induction each with
  | nil => rfl
  | @cons e e' as bs head _ ih =>
      obtain ⟨key, a⟩ := e
      obtain ⟨key', b⟩ := e'
      obtain ⟨rfl, same⟩ := head
      rw [sameEntries, sameEntries, ih]
      cases Entries.find? key cs with
      | none => rfl
      | some c => exact congrArg (· && _) (same c)

theorem sameEntries_perm (perm : as.Perm bs) : sameEntries as cs = sameEntries bs cs := by
  rw [Bool.eq_iff_iff, sameEntries_iff, sameEntries_iff]
  simp only [perm.mem_iff]

end Entries

namespace Rearranged

variable {as bs cs : List (String × Value)} {items items' : List Value}

theorem of_items (each : List.Forall₂ (Rearranged R) items items') :
    Rearranged R (.list items) (.list items') :=
  .list each.length_eq (Schema.forall₂_iff_forall_zip.1 each).2

theorem of_entries (each : List.Forall₂ (fun e e' => e.1 = e'.1 ∧ Rearranged R e.2 e'.2) as bs)
    (perm : bs.Perm cs) : Rearranged R (.dict as) (.dict cs) :=
  .dict (forall₂_entries_iff.1 each).1 (forall₂_entries_iff.1 each).2 perm

/-- Nothing need be rearranged. -/
theorem refl (v : Value) : v.Rearranged Eq v := by
  induction v with
  | null => exact .null
  | list items ih => exact .of_items (List.forall₂_same.2 ih)
  | dict entries ih =>
      exact .of_entries (List.forall₂_same.2 fun e mem => ⟨rfl, ih e mem⟩) (.refl _)
  | _ => exact .scalar rfl rfl rfl

theorem kind_eq (twins : Twins R) (h : v.Rearranged R w) : v.kind = w.kind := by
  cases h with
  | scalar _ _ related => exact twins.kind_eq related
  | _ => rfl

theorem isScalar_eq (h : v.Rearranged R w) : v.isScalar = w.isScalar := by
  cases h with
  | scalar scalar scalar' => exact scalar.trans scalar'.symm
  | _ => rfl

/-- Nothing of a scalar is rearranged. -/
theorem eq_of_isScalar (h : v.Rearranged Eq w) (scalar : v.isScalar = true) : v = w := by
  cases h with
  | scalar _ _ same => exact same
  | _ => cases scalar

/-- Each entry of a dictionary has its counterpart in a rearranged one. -/
theorem exists_counterpart (h : (Value.dict as).Rearranged R (.dict cs)) {e : String × Value}
    (mem : e ∈ as) : ∃ e' ∈ cs, e.1 = e'.1 ∧ e.2.Rearranged R e'.2 := by
  cases h with
  | scalar scalar => cases scalar
  | dict keys each perm =>
      obtain ⟨e', mem', related⟩ :=
        Schema.exists_mem_of_forall₂ (forall₂_entries_iff.2 ⟨keys, each⟩) mem
      exact ⟨e', perm.mem_iff.1 mem', related⟩

/-- With the scalars the other way around, a value is rearranged from its rearrangement. -/
theorem symm (h : v.Rearranged R w) : w.Rearranged (flip R) v := by
  induction h with
  | null => exact .null
  | scalar scalar scalar' related => exact .scalar scalar' scalar related
  | @list as bs length _ ih =>
      have each : List.Forall₂ (fun a b => b.Rearranged (flip R) a) as bs :=
        Schema.forall₂_iff_forall_zip.2 ⟨length, ih⟩
      exact .of_items each.flip
  | @dict as bs cs keys _ perm ih =>
      have each : List.Forall₂ (fun e e' => e.1 = e'.1 ∧ e'.2.Rearranged (flip R) e.2) as bs :=
        (forall₂_entries_iff (P := fun a b => b.Rearranged (flip R) a)).2 ⟨keys, ih⟩
      obtain ⟨ds, related, perm⟩ := List.perm_comp_forall₂ perm.symm each.flip
      exact .of_entries (related.imp fun _ _ h => ⟨h.1.symm, h.2⟩) perm

/-- A rearranged dictionary has the same keys. -/
theorem keys_perm (h : (Value.dict as).Rearranged R (.dict cs)) :
    (Entries.keys as).Perm (Entries.keys cs) := by
  cases h with
  | scalar scalar => cases scalar
  | dict keys _ perm => exact keys ▸ perm.map Prod.fst

/-- Each entry of a rearranged dictionary comes from an entry of the old one. -/
theorem exists_original (h : (Value.dict as).Rearranged R (.dict cs)) {e : String × Value}
    (mem : e ∈ cs) : ∃ e' ∈ as, e'.1 = e.1 ∧ e'.2.Rearranged R e.2 := by
  obtain ⟨e', inside, key, related⟩ := h.symm.exists_counterpart mem
  exact ⟨e', inside, key.symm, related.symm⟩

/-- Rearranged values equal the same values. -/
theorem same_eq (twins : Twins R) (h : v.Rearranged R w) (c : Value) : v.same c = w.same c := by
  induction h generalizing c with
  | null => rfl
  | scalar scalar scalar' related => exact twins.same_eq scalar scalar' related c
  | @list as bs length _ ih =>
      cases c with
      | list cs =>
          have each : List.Forall₂ (fun a b : Value => ∀ c, a.same c = b.same c) as bs :=
            Schema.forall₂_iff_forall_zip.2 ⟨length, ih⟩
          exact sameItems_congr each cs
      | _ => rfl
  | @dict as bs cs keys _ perm ih =>
      cases c with
      | dict ds =>
          have each : List.Forall₂
              (fun e e' : String × Value => e.1 = e'.1 ∧ ∀ c, e.2.same c = e'.2.same c) as bs :=
            (forall₂_entries_iff (P := fun a b => ∀ c, a.same c = b.same c)).2 ⟨keys, ih⟩
          show (as.length == ds.length && sameEntries as ds) =
            (cs.length == ds.length && sameEntries cs ds)
          rw [sameEntries_congr each, sameEntries_perm perm, each.length_eq, perm.length_eq]
      | _ => rfl

/-- Equal values are rearranged. -/
theorem of_same (distinct : v.Distinct) (h : v.same w = true) :
    v.Rearranged (fun a b => a.same b = true) w := by
  induction v generalizing w with
  | null =>
      cases w with
      | null => exact .null
      | _ => cases h
  | list items ih =>
      cases w with
      | list items' =>
          have each := Schema.forall₂_iff_forall_zip.1 (sameItems_iff.1 h)
          refine .list each.1 fun x mem => ih x.1 (List.of_mem_zip mem).1 ?_ (each.2 x mem)
          exact distinct_list_iff.1 distinct x.1 (List.of_mem_zip mem).1
      | _ => cases h
  | dict as ih =>
      cases w with
      | dict cs =>
          obtain ⟨nodup, distinct⟩ := distinct_dict_iff.1 distinct
          obtain ⟨length, entries⟩ := Bool.and_eq_true_iff.1 h
          rw [sameEntries_iff] at entries
          have counterpart : ∀ e ∈ as, ∃ e' ∈ cs, e.1 = e'.1 ∧
              e.2.Rearranged (fun a b => a.same b = true) e'.2 := by
            intro e mem
            obtain ⟨b, found, same⟩ := entries e mem
            exact ⟨(e.1, b), Entries.mem_of_find? found, rfl, ih e mem (distinct e mem) same⟩
          obtain ⟨bs, each, subset⟩ := exists_forall₂_subset counterpart
          -- As many entries as there are, with different keys, are all entries.
          have keys := (forall₂_entries_iff.1 each).1
          have perm : bs.Perm cs := by
            refine (List.subperm_of_subset ?_ subset).perm_of_length_le ?_
            · rw [keys] at nodup
              exact nodup.of_map Prod.fst
            · rw [← each.length_eq, beq_iff_eq.1 length]
          exact .of_entries each perm
      | _ => cases h
  | _ =>
      cases w with
      | null | list | dict => cases h
      | _ => exact .scalar rfl rfl h

/-- Rearrangements of one value that have one shape are the same. -/
theorem unique (h : v.Rearranged Eq u) (h' : v.Rearranged Eq u') (distinct : v.Distinct)
    (shaped : u.Shaped u') : u = u' := by
  induction shaped generalizing v with
  | null => rfl
  | scalar scalar =>
      obtain rfl := h.eq_of_isScalar (h.isScalar_eq.trans scalar)
      exact h'.eq_of_isScalar scalar
  | @list as bs length _ ih =>
      cases h with
      | scalar _ scalar => cases scalar
      | @list items _ size each =>
          cases h' with
          | scalar scalar => cases scalar
          | list size' each' =>
              have same : as = bs := by
                refine List.ext_getElem length fun i below below' => ?_
                have inside : i < items.length := size ▸ below
                exact ih _ (mem_zip_getElem below below') (each _ (mem_zip_getElem inside below))
                  (each' _ (mem_zip_getElem inside below'))
                  (distinct_list_iff.1 distinct _ (List.getElem_mem inside))
              rw [same]
  | @dict as bs keys _ ih =>
      cases v with
      | dict entries =>
          obtain ⟨nodup, distinct⟩ := distinct_dict_iff.1 distinct
          have same : List.Forall₂ (fun e e' => e.1 = e'.1 ∧ e.2 = e'.2) as bs := by
            refine forall₂_entries_iff.2 ⟨keys, fun x mem => ?_⟩
            obtain ⟨inside, inside'⟩ := List.of_mem_zip mem
            obtain ⟨e, origin, key, related⟩ := h.exists_original inside
            obtain ⟨e', origin', key', related'⟩ := h'.exists_original inside'
            -- Both entries come from the one with their key.
            have keys : x.1.1 = x.2.1 := key_eq_of_mem_zip keys mem
            obtain rfl : e = e' :=
              List.inj_on_of_nodup_map nodup origin origin' (key.trans (keys.trans key'.symm))
            exact ih x mem related related' (distinct e origin)
          have same : List.Forall₂ Eq as bs := same.imp fun _ _ h => Prod.ext h.1 h.2
          rw [List.forall₂_eq_eq_eq] at same
          rw [same]
      | _ =>
          cases h with
          | scalar _ scalar => cases scalar

end Rearranged

end DataShape.Value
