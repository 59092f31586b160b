import DataShape.Proofs.Check.Frame
import DataShape.Proofs.Check.Relaxing
import DataShape.Proofs.Walk.Rearranging

/-!
# The order of keys has no influence

Equal values, and values with reordered keys, are rearranged values with scalars that
cannot be told apart by their kind or by what they equal.  This is all that a schema asks
of a scalar, so rearranged values meet the same schemas (`Rearranged.meets_iff`) and differ
from a schema at a node in as many ways (`Local.exists_rearranged`).

With reordered keys and the same scalars, the coercer answers alike.  Hence the coercions
are rearranged, too.  The keys of a coercion come in the order of its value, so there is
nothing else that the coercion of a reordered value could be.
-/

namespace DataShape

open Value (Rearranged Twins)

variable {table : Table} {R : Value → Value → Prop} {s : Schema} {v v' w w' : Value}

/-! ## What rearranged values meet -/

/-- What a schema describes can be rearranged. -/
theorem Table.Meets.rearranged (twins : Twins R) (met : table.Meets s v)
    (h : v.Rearranged R w) : table.Meets s w := by
  induction met generalizing w with
  | kind accepts =>
      rw [Kind.accepts_iff, h.kind_eq twins] at accepts
      exact .kind (Kind.accepts_iff.2 accepts)
  | null nullable =>
      cases h with
      | null => exact .null nullable
      | scalar scalar => cases scalar
  | list _ ih =>
      cases h with
      | scalar scalar => cases scalar
      | list length each =>
          refine .list fun b mem => ?_
          obtain ⟨x, zipped, rfl⟩ := Schema.exists_mem_zip length mem
          exact ih x.1 (List.of_mem_zip zipped).1 (each x zipped)
  | @tuple elements items length _ ih =>
      cases h with
      | scalar scalar => cases scalar
      | @list _ items' size each =>
          have passes : List.Forall₂ (fun s a => ∀ b, Rearranged R a b → table.Meets s b)
              elements items :=
            Schema.forall₂_iff_forall_zip.2 ⟨length, fun x mem _ => ih x mem⟩
          exact meets_tuple_iff_forall₂.2
            (Schema.forall₂_comp passes (Schema.forall₂_iff_forall_zip.2 ⟨size, each⟩))
  | object required declared _ ih =>
      cases w with
      | dict cs =>
          refine .object (fun f mem needed => ?_) (fun e mem => ?_) fun e mem s found => ?_
          · exact h.keys_perm.mem_iff.1 (required f mem needed)
          · obtain ⟨e', origin, key, -⟩ := h.exists_original mem
            exact key ▸ declared e' origin
          · obtain ⟨e', origin, key, related⟩ := h.exists_original mem
            exact ih e' origin s (key ▸ found) related
      | _ =>
          cases h with
          | scalar scalar => cases scalar
  | choice mem _ ih => exact .choice mem (ih h)
  | named _ ih => exact .named (ih h)
  | reference found _ ih => exact .reference found (ih h)
  | literal same => exact .literal (h.same_eq twins _ ▸ same)

/-- Rearranged values meet the same schemas. -/
theorem Value.Rearranged.meets_iff (twins : Twins R) (h : v.Rearranged R w) :
    table.Meets s v ↔ table.Meets s w :=
  ⟨fun met => met.rearranged twins h, fun met => met.rearranged twins.flip h.symm⟩

/-! ## Failures -/

/-- A rearranged value differs from what describes it in as many ways. -/
theorem Local.exists_rearranged (twins : Twins R) {schema : Option Schema} {own : List Mismatch}
    (found : Local table schema v own) (h : v.Rearranged R w) :
    ∃ own', Local table schema w own' ∧ own'.length = own.length := by
  cases found with
  | undeclared => exact ⟨_, .undeclared, rfl⟩
  | met mem meets => exact ⟨_, .met mem (meets.rearranged twins h), rfl⟩
  | unmet none =>
      exact ⟨_, .unmet fun s mem meets => none s mem ((h.meets_iff twins).2 meets), rfl⟩
  | equal same => exact ⟨_, .equal ((h.same_eq twins _).symm.trans same), rfl⟩
  | unequal differs => exact ⟨_, .unequal ((h.same_eq twins _).symm.trans differs), rfl⟩
  | nullable =>
      cases h with
      | null => exact ⟨_, .nullable, rfl⟩
      | scalar scalar => cases scalar
  | unexpectedNull refuses =>
      cases h with
      | null => exact ⟨_, .unexpectedNull refuses, rfl⟩
      | scalar scalar => cases scalar
  | otherKind notNull expects differs =>
      rw [h.kind_eq twins] at differs
      refine ⟨_, .otherKind ?_ expects differs, rfl⟩
      rintro rfl
      cases h with
      | null => exact notNull rfl
      | scalar _ scalar => cases scalar
  | scalar same => exact ⟨_, .scalar ((h.kind_eq twins).symm.trans same), rfl⟩
  | list =>
      cases h with
      | scalar scalar => cases scalar
      | list => exact ⟨_, .list, rfl⟩
  | tuple ascending missing ascending' surplus =>
      cases h with
      | scalar scalar => cases scalar
      | list length =>
          rw [length] at missing surplus
          exact ⟨_, .tuple ascending missing ascending' surplus, rfl⟩
  | @object fields wildcard entries =>
      cases w with
      | dict entries' =>
          have perm := h.keys_perm
          refine ⟨_, .object, ?_⟩
          have missing :
              (fields.filter fun f => f.optional = false ∧ f.name ∉ Entries.keys entries') =
                fields.filter fun f => f.optional = false ∧ f.name ∉ Entries.keys entries := by
            simp only [perm.mem_iff]
          rw [List.length_append, List.length_append, List.length_map, List.length_map,
            List.length_map, List.length_map, missing, (perm.filter _).length_eq]
      | _ =>
          cases h with
          | scalar scalar => cases scalar

theorem length_raised_rearranged (twins : Twins R) {node node' : Node}
    (h : node.Rearranged R node') (visited : ∀ s, node.schema = some s →
      (∀ name, s ≠ .reference name) ∧ ∀ name body, s ≠ .named name body) :
    (raised table node).length = (raised table node').length := by
  obtain ⟨own, found⟩ := node.exists_local table visited
  obtain ⟨own', found', length⟩ := found.exists_rearranged twins h.value
  rw [h.schema] at found'
  rw [found.raised_eq, found'.raised_eq, List.length_map, List.length_map, length]

namespace Resolved

variable {r : Resolved}

/-- Rearranged values have as many failures. -/
theorem exists_failures_rearranged (twins : Twins R) (h : v.Rearranged R w) :
    ∃ found found', (r.failures v).result = .ok found ∧ (r.failures w).result = .ok found' ∧
      found.length = found'.length := by
  obtain ⟨calls, walks, kept, collected⟩ := r.exists_failures v
  obtain ⟨calls', walks', kept', collected'⟩ := r.exists_failures w
  refine ⟨_, _, collected, collected', ?_⟩
  have visits := Visits.of_walks walks kept
  obtain ⟨-, mid, related, perm⟩ := walks.rearranged walks' ⟨rfl, rfl, rfl, h⟩
    fun call mem call' mem' related => by
      rw [kept call mem, kept' call' mem']
      exact related.value
  have lengths : calls.map (fun call => (raised r.table call.1).length) =
      mid.map fun call => (raised r.table call.1).length := by
    rw [← List.forall₂_eq_eq_eq, List.forall₂_map_left_iff, List.forall₂_map_right_iff]
    refine Schema.forall₂_imp_of_mem (fun call mem call' _ h => ?_) related
    refine length_raised_rearranged twins h fun s declared => ?_
    obtain ⟨reference, named, -⟩ := visits.schema_of_mem (List.mem_map_of_mem mem) declared
    exact ⟨reference, named⟩
  rw [List.length_flatMap, List.length_flatMap, lengths]
  exact (perm.map _).sum_nat

/-! ## Coercions -/

variable {calls calls' : List Call}

/-- Null and containers are kept. -/
theorem Coerces.kept (coerces : r.Coerces v w calls) {call : Call} (mem : call ∈ calls)
    (other : call.1.value.isScalar = false) : call.2 = .keep := by
  obtain ⟨node, answer⟩ := call
  cases answer with
  | keep => rfl
  | replace u => exact absurd (other.symm.trans (coerces.converted mem).before) Bool.false_ne_true

/-- Two coercers give one answer to a node. -/
theorem Coerces.answer_unique (coerces : r.Coerces v w calls) (coerces' : r.Coerces v' w' calls')
    {node : Node} {answer answer' : Visit} (mem : (node, answer) ∈ calls)
    (mem' : (node, answer') ∈ calls') : answer = answer' := by
  obtain ⟨_, _, asked⟩ := exists_gives_of_answers coerces.walks.2 mem
  obtain ⟨_, _, asked'⟩ := exists_gives_of_answers coerces'.walks.2 mem'
  exact (agree_coercer (fun _ _ _ _ first second => convertAtChoice_unique first second)
    node _ _ _ _ _ asked asked').1

/-- The coercer leaves related values at nodes with reordered values. -/
theorem Coerces.after_rearranged (coerces : r.Coerces v w calls)
    (coerces' : r.Coerces v' w' calls') {call call' : Call} (mem : call ∈ calls)
    (mem' : call' ∈ calls') (h : call.1.Rearranged Eq call'.1) :
    (call.2.on call.1.value).Rearranged Eq (call'.2.on call'.1.value) := by
  cases scalar : call.1.value.isScalar with
  | false =>
      rw [coerces.kept mem scalar, coerces'.kept mem' (h.value.isScalar_eq.symm.trans scalar)]
      exact h.value
  | true =>
      obtain ⟨node, answer⟩ := call
      obtain ⟨node', answer'⟩ := call'
      obtain rfl : node = node' := h.eq_of_isScalar scalar
      obtain rfl := coerces.answer_unique coerces' mem mem'
      exact .refl _

theorem Coerces.shaped (coerces : r.Coerces v w calls) : v.Shaped w :=
  coerces.walks.1.shaped fun _ _ mem => (coerces.converted mem).toSwapped

/-- The coercion of a reordered value is the reordered coercion. -/
theorem exists_coerce_rearranged (h : v.Rearranged Eq v') :
    ∃ w w', (r.coerce v).result = .ok w ∧ (r.coerce v').result = .ok w' ∧ w.Rearranged Eq w' ∧
      v.Shaped w ∧ v'.Shaped w' := by
  obtain ⟨w, calls, coerces, coerced, walks, -⟩ := r.exists_coerces v
  obtain ⟨w', calls', coerces', coerced', walks', -⟩ := r.exists_coerces v'
  have related := walks.rearranged walks' ⟨rfl, rfl, rfl, h⟩
    fun call mem call' mem' => coerces.after_rearranged coerces' mem mem'
  exact ⟨w, w', coerced, coerced', related.1, coerces.shaped, coerces'.shaped⟩

/-- The order of keys has no influence.  Equal values are both valid or both invalid, with as
many failures, and so are values with reordered keys.  If keys are reordered at any depth
and nothing else is changed, then the coercion is the old one with the keys so reordered:
it has the order of the new value, and no other value with this order has the same entries
at all depths.  It is the same if the schema is resolved anew. -/
theorem key_order_has_no_influence (r : Resolved) (v w : Value) (distinct : v.Distinct) :
    (v.same w = true ∨ v.Rearranged Eq w → ∃ valid found found',
      (r.isValid v).result = .ok valid ∧ (r.isValid w).result = .ok valid ∧
      (r.failures v).result = .ok found ∧ (r.failures w).result = .ok found' ∧
      found.length = found'.length) ∧
    (v.Rearranged Eq w → ∃ u u', (r.coerce v).result = .ok u ∧ (r.coerce w).result = .ok u' ∧
      u.Rearranged Eq u' ∧ w.Shaped u' ∧ ∀ x, u.Rearranged Eq x → w.Shaped x → x = u') ∧
    ∀ s : Schema, s.resolve.result = .ok r → ∀ x,
      (s.isValid x).result = (r.isValid x).result ∧
      (s.failures x).result = (r.failures x).result ∧
      (s.coerce x).result = (r.coerce x).result := by
  refine ⟨fun alike => ?_, fun reordered => ?_, fun s accepted x => ?_⟩
  · have judged : ∀ {R}, Twins R → v.Rearranged R w → ∃ valid found found',
        (r.isValid v).result = .ok valid ∧ (r.isValid w).result = .ok valid ∧
        (r.failures v).result = .ok found ∧ (r.failures w).result = .ok found' ∧
        found.length = found'.length := by
      intro R twins h
      obtain ⟨found, found', collected, collected', length⟩ := exists_failures_rearranged twins h
      obtain ⟨valid, judged, met⟩ := r.exists_isValid v
      obtain ⟨valid', judged', met'⟩ := r.exists_isValid w
      obtain rfl : valid = valid' :=
        Bool.eq_iff_iff.2 (met.trans ((h.meets_iff twins).trans met'.symm))
      exact ⟨valid, found, found', judged, judged', collected, collected', length⟩
    rcases alike with same | reordered
    · exact judged Value.twins_same (.of_same distinct same)
    · exact judged Value.twins_eq reordered
  · obtain ⟨u, u', coerced, coerced', related, shaped, shaped'⟩ :=
      exists_coerce_rearranged reordered
    refine ⟨u, u', coerced, coerced', related, shaped', fun x again shapedAgain => ?_⟩
    exact again.unique related (shaped.distinct distinct) (shapedAgain.join shaped')
  · exact ⟨Report.result_bind_of_ok accepted, Report.result_bind_of_ok accepted,
      Report.result_bind_of_ok accepted⟩

/-! ### Two readings -/

/-- A number and a zero. -/
def readingType : Resolved where
  table := []
  root := .object
    [⟨"count", false, .primitive ⟨.int, false⟩⟩, ⟨"offset", false, .literal (.float 0.0)⟩] none
  verified := rfl

/-- A reading whose number is a text. -/
def reading : Value := .dict [("count", .str "7"), ("offset", .float 0.0)]

/-- The reading with its keys reordered and the other zero is as wrong, and if only its keys are
reordered then so are those of its coercion. -/
theorem reading_reordered :
    let reordered (offset : Value) : Value := .dict [("offset", offset), ("count", .str "7")]
    reading.Distinct ∧ reading.same (reordered (.float (-0.0))) = true ∧
      reading.Rearranged Eq (reordered (.float 0.0)) ∧
      (∃ found, (readingType.failures (reordered (.float (-0.0)))).result = .ok found ∧
        found.length = 1) ∧
      (readingType.coerce (reordered (.float 0.0))).result =
        .ok (.dict [("offset", .float 0.0), ("count", .int 7)]) := by
  intro reordered
  have distinct : reading.Distinct := by
    have scalars : ∀ e ∈ [("count", Value.str "7"), ("offset", .float 0.0)],
        e.2.isScalar = true := by
      simp [Value.isScalar]
    exact Value.distinct_dict_iff.2
      ⟨by decide, fun e mem => Value.distinct_of_isScalar (scalars e mem)⟩
  have same : reading.same (reordered (.float (-0.0))) = true := by decide
  have swapped : reading.Rearranged Eq (reordered (.float 0.0)) :=
    .of_entries (List.forall₂_same.2 fun e _ => ⟨rfl, .refl e.2⟩) (.swap _ _ _)
  obtain ⟨equal, -, -⟩ :=
    key_order_has_no_influence readingType reading (reordered (.float (-0.0))) distinct
  obtain ⟨_, found, found', -, -, collected, collected', length⟩ := equal (.inl same)
  obtain ⟨-, coerced, -⟩ :=
    key_order_has_no_influence readingType reading (reordered (.float 0.0)) distinct
  obtain ⟨u, u', first, second, -, -, only⟩ := coerced swapped
  cases collected
  cases first
  have last := only (.dict [("offset", .float 0.0), ("count", .int 7)])
    (.of_entries (List.forall₂_same.2 fun e _ => ⟨rfl, .refl e.2⟩) (.swap _ _ _))
    (.of_entries (.cons ⟨rfl, .scalar rfl rfl⟩ (.cons ⟨rfl, .scalar rfl rfl⟩ .nil)))
  exact ⟨distinct, same, swapped, ⟨found', collected', length.symm⟩, last ▸ second⟩

end Resolved

end DataShape
