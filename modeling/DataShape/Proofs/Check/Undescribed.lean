import DataShape.Proofs.Check.Rearranging
import DataShape.Proofs.Walk.Aligned

/-!
# What nothing describes has no influence

A value may hold data that its schema does not describe: values under undeclared keys of an
object without a wildcard, and items behind the last element of a tuple.  The keys and the
number of the items matter, as they are reported, but not what is there.  So two values that
differ in nothing else have the same failures, with the same texts, and their coercions differ
in nothing else.  This data comes back from a coercion as it was.

A text holds a value as a whole only at a choice and at a literal, and a walk does not go below
these.  What is there is described as a whole, so it is the same in both values.
-/

namespace DataShape

/-- Two values differ at most in what a schema does not describe. -/
def Table.SameDescribed (table : Table) (s : Schema) (v w : Value) : Prop :=
  table.Aligned (fun _ _ => True) Eq (some s) v w

/-- The second value has scalars for some of the scalars that a schema describes in the first
one.  Nothing else is different. -/
def Table.Recast (table : Table) (s : Schema) (v w : Value) : Prop :=
  table.Aligned Eq (fun a b => a = b ∨ a.isScalar = true ∧ b.isScalar = true) (some s) v w

variable {table : Table} {free : Value → Value → Prop} {v w v' w' : Value}

/-! ## Failures -/

/-- Aligned nodes raise the same. -/
theorem raised_of_aligned {node node' : Node} (h : node.Aligned free Eq node') :
    raised table node = raised table node' := by
  obtain ⟨path, schema, v, options⟩ := node
  obtain ⟨path', schema', w, options'⟩ := node'
  obtain ⟨rfl, rfl, here, rfl⟩ := h
  cases schema with
  | none => rfl
  | some t =>
      cases t with
      | list element =>
          cases v with
          | list as =>
              cases w with
              | list bs => rfl
              | _ => cases here
          | _ =>
              cases here
              rfl
      | tuple elements =>
          cases v with
          | list as =>
              cases w with
              | list bs => simp only [raised, mismatches, here.1]
              | _ => cases here
          | _ =>
              cases here
              rfl
      | object fields wildcard =>
          cases v with
          | dict as =>
              cases w with
              | dict bs =>
                  have keys : Entries.keys as = Entries.keys bs := here
                  simp only [raised, mismatches, missingProperties_congr keys,
                    unexpectedProperties_congr keys]
              | _ => cases here
          | _ =>
              cases here
              rfl
      | _ =>
          cases here
          rfl

/-- Aligned leaves are the same node. -/
theorem Node.Aligned.eq_of_leaf {node node' : Node} (h : node.Aligned free Eq node')
    (leaf : node.Leaf) : node = node' := by
  obtain ⟨path, schema, v, options⟩ := node
  obtain ⟨path', schema', w, options'⟩ := node'
  obtain ⟨rfl, rfl, here, rfl⟩ := h
  rcases leaf with ⟨p, declared⟩ | ⟨alternatives, declared⟩
  · cases declared
    obtain rfl : v = w := here
    rfl
  · cases declared
    obtain rfl : v = w := here
    rfl

namespace Resolved

variable {r : Resolved} {calls calls' : List Call}

theorem task_aligned (same : r.table.SameDescribed r.root v w) :
    (r.task v).Aligned r.table (fun _ _ => True) Eq (r.task w) :=
  ⟨rfl, rfl, rfl, same⟩

/-- The failures of two values are equal if the values differ in nothing that is described. -/
theorem exists_failures_same (same : r.table.SameDescribed r.root v w) :
    ∃ found, (r.failures v).result = .ok found ∧ (r.failures w).result = .ok found := by
  obtain ⟨calls, walks, kept, collected⟩ := r.exists_failures v
  obtain ⟨calls', walks', kept', collected'⟩ := r.exists_failures w
  obtain ⟨-, nodes⟩ := walks.aligned (fun _ => trivial) (fun _ => rfl) walks' (task_aligned same)
    fun call mem call' mem' _ => .inl ⟨kept call mem, kept' call' mem'⟩
  have raises : (calls.map fun call => raised r.table call.1) =
      calls'.map fun call => raised r.table call.1 := by
    rw [← List.forall₂_eq_eq_eq, List.forall₂_map_left_iff, List.forall₂_map_right_iff]
    exact nodes.imp fun _ _ node => raised_of_aligned node
  refine ⟨_, collected, ?_⟩
  rw [List.flatMap_def, raises, ← List.flatMap_def]
  exact collected'

/-! ## Coercions -/

/-- Only leaves are replaced. -/
theorem Coerces.kept_of_not_leaf (coerces : r.Coerces v v' calls) {call : Call}
    (mem : call ∈ calls) (inner : ¬ call.1.Leaf) : call.2 = .keep := by
  obtain ⟨node, answer⟩ := call
  cases answer with
  | keep => rfl
  | replace u => exact absurd (coerces.converted mem).leaf inner

/-- The coercer answers the same at aligned nodes. -/
theorem Coerces.answers_aligned (coerces : r.Coerces v v' calls) (coerces' : r.Coerces w w' calls')
    {call call' : Call} (mem : call ∈ calls) (mem' : call' ∈ calls')
    (h : call.1.Aligned free Eq call'.1) : call.Aligned Eq call' := by
  by_cases leaf : call.1.Leaf
  · obtain ⟨node, answer⟩ := call
    obtain ⟨node', answer'⟩ := call'
    obtain rfl : node = node' := h.eq_of_leaf leaf
    obtain rfl := coerces.answer_unique coerces' mem mem'
    exact .inr ⟨leaf, rfl⟩
  · have inner : ¬ call'.1.Leaf := fun leaf' => leaf (by rwa [Node.Leaf, h.schema])
    exact .inl ⟨coerces.kept_of_not_leaf mem leaf, coerces'.kept_of_not_leaf mem' inner⟩

/-- Coercions of values that differ in nothing that is described do not differ in more. -/
theorem Coerces.sameDescribed (coerces : r.Coerces v v' calls) (coerces' : r.Coerces w w' calls')
    (same : r.table.SameDescribed r.root v w) : r.table.SameDescribed r.root v' w' :=
  (coerces.walks.1.aligned (fun _ => trivial) (fun _ => rfl) coerces'.walks.1 (task_aligned same)
    fun _ mem _ mem' => coerces.answers_aligned coerces' mem mem').1

/-- A coercion changes scalars that are described, and what nothing describes comes back. -/
theorem Coerces.recast (coerces : r.Coerces v v' calls) : r.table.Recast r.root v v' := by
  have repairs : ∀ call ∈ calls, Call.Repairs r.table call := by
    intro call mem
    obtain ⟨_, _, asked⟩ := exists_gives_of_answers coerces.walks.2 mem
    exact of_gives_coercer asked
  have same : (r.task v).Aligned r.table Eq Eq (r.task v) :=
    ⟨rfl, rfl, rfl, .refl (fun _ => rfl) (fun _ => rfl) _ _⟩
  refine ((coerces.walks.1.unrepaired repairs).aligned (fun _ => rfl) (fun _ => .inl rfl)
    coerces.walks.1 same fun call mem call' mem' node => ?_).1
  obtain ⟨origin, -, rfl⟩ := List.mem_map.1 mem
  obtain ⟨node', answer⟩ := call'
  cases answer with
  | keep => exact .inl ⟨rfl, rfl⟩
  | replace u =>
      have swapped := (coerces.converted mem').toSwapped
      have leaf : origin.keeping.1.Leaf := by
        rw [Node.Leaf, node.schema]
        exact swapped.leaf
      obtain rfl : _ = node' := node.eq_of_leaf leaf
      exact .inr ⟨leaf, .inr ⟨swapped.before, swapped.after⟩⟩

/-- What nothing describes has no influence.  If two values differ in nothing that the schema
describes, then their failures are equal, and so are the texts of these.  Their coercions differ
in nothing that is described either, and what is not described is in each of them as it was in
its own value.  It is the same if the schema is resolved anew. -/
theorem undescribed_has_no_influence (r : Resolved) (v w : Value)
    (same : r.table.SameDescribed r.root v w) :
    (∃ found, (r.failures v).result = .ok found ∧ (r.failures w).result = .ok found ∧
      (r.validate v).result = .ok (found.map Failure.message) ∧
      (r.validate w).result = .ok (found.map Failure.message)) ∧
    (∃ v' w', (r.coerce v).result = .ok v' ∧ (r.coerce w).result = .ok w' ∧
      r.table.SameDescribed r.root v' w' ∧
      r.table.Recast r.root v v' ∧ r.table.Recast r.root w w') ∧
    ∀ s : Schema, s.resolve.result = .ok r → ∀ x,
      (s.failures x).result = (r.failures x).result ∧
      (s.validate x).result = (r.validate x).result ∧
      (s.coerce x).result = (r.coerce x).result := by
  refine ⟨?_, ?_, fun s accepted x => ?_⟩
  · obtain ⟨found, collected, collected'⟩ := exists_failures_same same
    exact ⟨found, collected, collected', r.validate_eq collected, r.validate_eq collected'⟩
  · obtain ⟨v', calls, coerces, coerced, -⟩ := r.exists_coerces v
    obtain ⟨w', calls', coerces', coerced', -⟩ := r.exists_coerces w
    exact ⟨v', w', coerced, coerced', coerces.sameDescribed coerces' same, coerces.recast,
      coerces'.recast⟩
  · exact ⟨Report.result_bind_of_ok accepted, Report.result_bind_of_ok accepted,
      Report.result_bind_of_ok accepted⟩

/-! ### Two sightings -/

/-- Sightings with a number, a place and nothing else.  A place is one number. -/
def sightingType : Resolved where
  table := []
  root := .object [⟨"id", false, .primitive ⟨.int, false⟩⟩,
    ⟨"at", false, .tuple [.primitive ⟨.int, false⟩]⟩] none
  verified := rfl

/-- A sighting with a text for its number, and with two things that nothing describes. -/
def sighting (surplus note : Value) : Value :=
  .dict [("id", .str "7"), ("at", .list [.int 1, surplus]), ("note", note)]

/-- The failures of two sightings are equal, and each one gets back what nothing describes. -/
theorem sightings_alike :
    let v := sighting (.str "2") (.list [.null])
    let w := sighting .null (.bool true)
    sightingType.table.SameDescribed sightingType.root v w ∧
    (sightingType.failures w).result = .ok
      [⟨.root, .unexpectedProperty "note"⟩, ⟨Path.root.key "id", .typeMismatch "int" "str"⟩,
        ⟨Path.root.key "at", .unexpectedIndex 1⟩] ∧
    (sightingType.coerce w).result = .ok
      (.dict [("id", .int 7), ("at", .list [.int 1, .null]), ("note", .bool true)]) ∧
    sightingType.table.SameDescribed sightingType.root
      (.dict [("id", .int 7), ("at", .list [.int 1, .str "2"]), ("note", .list [.null])])
      (.dict [("id", .int 7), ("at", .list [.int 1, .null]), ("note", .bool true)]) := by
  intro v w
  have same : sightingType.table.SameDescribed sightingType.root v w := by
    refine .object (.here (by simp [sightingType]) (by simp [sightingType])) rfl fun x mem => ?_
    simp only [List.zip_cons_cons, List.zip_nil_left, List.mem_cons, List.not_mem_nil,
      or_false] at mem
    rcases mem with rfl | rfl | rfl
    · exact .told rfl
    · refine .tuple (.here (by simp) (by simp)) rfl fun i a b found found' => ?_
      rcases i with _ | _ | i
      · cases found
        cases found'
        exact .told rfl
      · exact .free trivial
      · cases found
    · exact .free trivial
  obtain ⟨⟨found, collected, collected', -⟩, ⟨v', w', coerced, coerced', same', -⟩, -⟩ :=
    undescribed_has_no_influence sightingType v w same
  cases collected
  cases coerced
  have last : (sightingType.coerce w).result = .ok
      (.dict [("id", .int 7), ("at", .list [.int 1, .null]), ("note", .bool true)]) := rfl
  cases coerced'
  exact ⟨same, collected', last, same'⟩

end Resolved

end DataShape
