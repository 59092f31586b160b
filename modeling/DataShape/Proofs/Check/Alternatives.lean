import DataShape.Proofs.Check.Idempotence
import DataShape.Proofs.Names.Flattening

/-!
# Which conversion wins at a choice

The coercer goes through the alternatives of a choice one by one, and where it finds a
choice inside, it asks again whether the value meets anything there before it goes on.
The outcome can be told from the flattened alternatives.  If the value meets one of them
it stays, and else the first primitive that converts it wins (`convertAtChoice_eq`).

The inner question never matters, since a value that meets an inner choice meets the
outer one.  Neither do alternatives that are no primitives, which convert nothing.
-/

namespace DataShape

variable {table : Table} {s t : Schema} {v w : Value} {as flat : List Schema} {o : Option Value}
  {bound limit : Nat}

/-- What a schema itself makes of a value: primitives convert, and nothing else does. -/
def Schema.convert? : Schema → Value → Option Value
  | .primitive p, v => p.kind.convert? v
  | _, _ => none

open Classical in
/-- What becomes of a value at a choice with these alternatives, all of them flattened. -/
noncomputable def Table.choose (table : Table) (flat : List Schema) (v : Value) : Option Value :=
  if ∃ s ∈ flat, table.Meets s v then none else flat.findSome? (·.convert? v)

/-! ## Flattened alternatives -/

namespace Table

/-- To meet an alternative is to meet a flattened one. -/
theorem Flattens.exists_meets_iff (h : table.Flattens as flat) :
    (∃ s ∈ as, table.Meets s v) ↔ ∃ s ∈ flat, table.Meets s v := by
  induction h with
  | nil => rfl
  | reference found _ ih =>
      rw [← ih, List.exists_mem_cons_iff, List.exists_mem_cons_iff, meets_reference_iff found]
  | choice _ ih =>
      rw [List.exists_mem_cons_iff, meets_choice_iff, ← ih]
      simp only [List.mem_append, or_and_right, exists_or]
  | leaf _ _ _ ih => rw [List.exists_mem_cons_iff, List.exists_mem_cons_iff, ih]

/-- Alternatives that can be flattened one by one can be flattened together. -/
theorem exists_flattens_of_forall (each : ∀ s ∈ as, ∃ flat, table.Flattens [s] flat) :
    ∃ flat, table.Flattens as flat := by
  induction as with
  | nil => exact ⟨[], .nil⟩
  | cons s as ih =>
      obtain ⟨first, flattens⟩ := each s (by simp)
      obtain ⟨rest, flattens'⟩ := ih fun s mem => each s (by simp [mem])
      exact ⟨first ++ rest, flattens.append flattens'⟩

/-- A way that ends, with all its references known, can be flattened. -/
theorem Within.exists_flattens {n : Nat} (within : table.Within n s)
    (bodies : table.AllGrounded bound) (grounded : table.Grounded bound s) :
    ∃ flat, table.Flattens [s] flat := by
  induction within with
  | @step n s _ ih =>
      cases s with
      | reference name =>
          obtain ⟨t, found⟩ := grounded.resolves name .self
          obtain ⟨body, lookup⟩ := exists_find?_of_mem_keys (mem_keys_of_resolve found)
          obtain ⟨flat, flattens⟩ := ih body (by simp [ahead, lookup])
            (bodies _ (Entries.mem_of_find? lookup))
          exact ⟨flat, .reference lookup flattens⟩
      | choice nested =>
          obtain ⟨flat, flattens⟩ := exists_flattens_of_forall fun s mem =>
            ih s mem (grounded.part (.of_mem mem))
          exact ⟨flat, .choice (by rwa [List.append_nil])⟩
      | _ => exact ⟨_, .leaf (by simp) (by simp) .nil⟩

/-- The alternatives of a grounded choice can be flattened. -/
theorem Grounded.exists_flattens (bodies : table.AllGrounded bound)
    (grounded : table.Grounded bound (.choice as)) : ∃ flat, table.Flattens as flat :=
  exists_flattens_of_forall fun s mem =>
    (grounded.within s (.of_mem mem)).exists_flattens bodies (grounded.part (.of_mem mem))

end Table

/-! ## The first conversion -/

/-- If each alternative offers the first conversion of its own flattened list, then
together they offer the first one of the whole list. -/
theorem firstConversion_eq {convert : Schema → Report (Option Value)}
    (each : ∀ s ∈ as, ∀ flat o, table.Flattens [s] flat → (convert s).result = .ok o →
      o = flat.findSome? (·.convert? v))
    (flattens : table.Flattens as flat)
    (converted : (firstConversion convert as).result = .ok o) :
    o = flat.findSome? (·.convert? v) := by
  induction as generalizing flat with
  | nil =>
      cases flattens
      cases converted
      rfl
  | cons s as ih =>
      have flattens : table.Flattens ([s] ++ as) flat := flattens
      obtain ⟨first, rest, rfl, here, behind⟩ := flattens.of_append
      rw [firstConversion, Report.result_bind_eq_ok_iff] at converted
      obtain ⟨offer, offered, converted⟩ := converted
      rw [List.findSome?_append, ← each s (by simp) first offer here offered]
      cases offer with
      | some u =>
          cases converted
          rfl
      | none => exact ih (fun s mem => each s (by simp [mem])) behind converted

/-- Where no alternative is met, the first conversion of the flattened list wins. -/
theorem convertAtChoice_eq_findSome? (flattens : table.Flattens as flat)
    (unmet : ¬ ∃ s ∈ as, table.Meets s v)
    (converted : (convertAtChoice table limit as v).result = .ok o) :
    o = flat.findSome? (·.convert? v) := by
  induction limit generalizing as flat o with
  | zero => cases converted
  | succ limit ih =>
      rw [convertAtChoice_succ, Report.result_bind_eq_ok_iff] at converted
      obtain ⟨met, judged, converted⟩ := converted
      have decided := anyMet_eq_ok (judges_satisfies table limit) judged
      cases met with
      | true => exact absurd (decided.1 rfl) unmet
      | false =>
          refine firstConversion_eq (fun s mem flat o flattens offered => ?_) flattens converted
          obtain ⟨t, found⟩ := resolve_of_offer offered
          have flattens := (Table.follows_of_follow found).flattens_iff.1 flattens
          rw [offer_result found] at offered
          by_cases choice : ∃ nested, t = .choice nested
          · obtain ⟨nested, rfl⟩ := choice
            rw [Table.flattens_choice_iff, List.append_nil] at flattens
            -- What meets the inner choice would meet the outer one.
            refine ih flattens (fun met => unmet ⟨s, mem, ?_⟩) offered
            exact (Table.meets_resolve_iff found).2 (meets_choice_iff.2 met)
          · obtain ⟨_, rfl, behind⟩ := (Table.flattens_leaf_iff
              (Table.ne_reference_of_follow found) fun nested eq => choice ⟨nested, eq⟩).1 flattens
            cases behind
            cases t with
            | choice nested => exact absurd ⟨nested, rfl⟩ choice
            | primitive p =>
                obtain rfl := Except.ok.inj offered
                cases h : p.kind.convert? v <;> simp [Schema.convert?, h]
            | _ =>
                obtain rfl := Except.ok.inj offered
                rfl

/-- What is converted at a choice is told by its flattened alternatives. -/
theorem convertAtChoice_eq (flattens : table.Flattens as flat)
    (converted : (convertAtChoice table limit as v).result = .ok o) : o = table.choose flat v := by
  rw [Table.choose]
  split
  · next met =>
      cases o with
      | none => rfl
      | some w =>
          exact absurd (flattens.exists_meets_iff.2 met) (of_convertAtChoice converted).unmet
  · next unmet =>
      exact convertAtChoice_eq_findSome? flattens (mt flattens.exists_meets_iff.1 unmet) converted

/-- What a schema makes of a value is described by the schema. -/
theorem meets_of_convert? (converted : s.convert? v = some w) : table.Meets s w := by
  cases s with
  | primitive p => exact .kind (Kind.convert?_eq_some converted).2.2
  | _ => cases converted

/-- What becomes of a value at a choice comes from one of the flattened alternatives. -/
theorem exists_convert?_of_choose (chosen : table.choose flat v = some w) :
    ∃ s ∈ flat, s.convert? v = some w := by
  rw [Table.choose] at chosen
  split at chosen
  · cases chosen
  · exact List.exists_of_findSome?_eq_some chosen

/-- What becomes of a value at a choice meets the choice. -/
theorem meets_of_choose (flattens : table.Flattens as flat)
    (chosen : table.choose flat v = some w) : table.Meets (.choice as) w := by
  obtain ⟨s, mem, converted⟩ := exists_convert?_of_choose chosen
  exact meets_choice_iff.2 (flattens.exists_meets_iff.2 ⟨s, mem, meets_of_convert? converted⟩)

/-! ## Choices on a walk -/

/-- The choices of the coercer's walk can be flattened, and its answer is the one that the
flattened alternatives tell. -/
theorem Resolved.Coerces.exists_flattens {r : Resolved} {calls : List Call}
    (coerces : r.Coerces v w calls) {node : Node} {answer : Visit} (mem : (node, answer) ∈ calls)
    (declared : node.schema = some (.choice as)) :
    ∃ flat, r.table.Flattens as flat ∧
      answer = (r.table.choose flat node.value).elim .keep .replace := by
  have grounded := coerces.walks.1.grounded r.grounded_table
    (fun s start => Option.some.inj start ▸ r.grounded_root) _ mem _ declared
  obtain ⟨flat, flattens⟩ := Table.Grounded.exists_flattens r.grounded_table grounded
  obtain ⟨o, converted, rfl⟩ := coerces.exists_conversion mem
  rw [conversion, declared] at converted
  exact ⟨flat, flattens, by rw [convertAtChoice_eq flattens converted]⟩

end DataShape
