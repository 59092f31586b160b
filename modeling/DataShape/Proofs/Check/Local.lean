import Mathlib.Data.List.Sort
import DataShape.Proofs.Check.Validity
import DataShape.Proofs.Walk.Visits

/-!
# The failures of a value, node by node

`Local` says how a value differs from its schema at one node.  It is a judgment on
the schema and the value alone, with one rule for each way to be right or wrong:
there is no walk in it, and a choice asks for conformance.  A choice and a literal
come before null, and null before any other kind.

The failures of a value are those of the nodes that `Visits` lists, one node after
the other (`failures_are_local_mismatches`).  Neither the listing nor what is found
at a node leaves anything open (`Local.unique`).
-/

namespace DataShape

/-- The kind of value that a schema is made for.  Choices and literals are made for
any kind. -/
def Schema.expects? : Schema → Option String
  | .primitive p => some p.kind.name
  | .list _ | .tuple _ => some "list"
  | .object _ _ => some "dict"
  | _ => none

/-- How a value differs from what describes it, its parts not counted. -/
inductive Local (table : Table) : Option Schema → Value → List Mismatch → Prop
  /-- What nothing describes is reported at its dictionary. -/
  | undeclared {v : Value} : Local table none v []
  /-- The value conforms to an alternative. -/
  | met {alternatives : List Schema} {s : Schema} {v : Value} :
      s ∈ alternatives → table.Meets s v → Local table (some (.choice alternatives)) v []
  /-- The value conforms to no alternative. -/
  | unmet {alternatives : List Schema} {v : Value} : (∀ s ∈ alternatives, ¬ table.Meets s v) →
      Local table (some (.choice alternatives)) v
        [.noneOfChoices v.text (renderChoices alternatives)]
  /-- The value equals the literal. -/
  | equal {expected v : Value} : v.same expected = true →
      Local table (some (.literal expected)) v []
  /-- The value differs from the literal. -/
  | unequal {expected v : Value} : v.same expected = false →
      Local table (some (.literal expected)) v [.literalMismatch expected.plain v.plain]
  /-- Null at a nullable primitive. -/
  | nullable {kind : Kind} : Local table (some (.primitive ⟨kind, true⟩)) .null []
  /-- Null at any other schema that is neither a choice nor a literal. -/
  | unexpectedNull {s : Schema} : s.refusesNull = true → Local table (some s) .null [.unexpectedNull]
  /-- Something else than null of a kind that the schema is not made for. -/
  | otherKind {s : Schema} {v : Value} {expected : String} : v ≠ .null →
      s.expects? = some expected → v.kind ≠ expected →
      Local table (some s) v [.typeMismatch expected v.kind]
  /-- A scalar of the right kind. -/
  | scalar {p : Primitive} {v : Value} : v.kind = p.kind.name → Local table (some (.primitive p)) v []
  /-- A list of any length. -/
  | list {element : Schema} {items : List Value} : Local table (some (.list element)) (.list items) []
  /-- A list of too few or too many items, each position in ascending order. -/
  | tuple {elements : List Schema} {items : List Value} {missing surplus : List Nat} :
      missing.Pairwise (· < ·) →
      (∀ i, i ∈ missing ↔ items.length ≤ i ∧ i < elements.length) →
      surplus.Pairwise (· < ·) →
      (∀ i, i ∈ surplus ↔ elements.length ≤ i ∧ i < items.length) →
      Local table (some (.tuple elements)) (.list items)
        (missing.map .missingIndex ++ surplus.map .unexpectedIndex)
  /-- A dictionary.  Required keys that it lacks come in the order of their declaration,
  before its own keys that nothing describes. -/
  | object {fields : List (Field Schema)} {wildcard : Option Schema} {entries : Entries Value} :
      Local table (some (.object fields wildcard)) (.dict entries)
        (((fields.filter fun f => f.optional = false ∧ f.name ∉ entries.keys).map
            fun f => .missingProperty f.name) ++
          (entries.keys.filter fun key => wildcard = none ∧ key ∉ fields.map Field.name).map
            .unexpectedProperty)

variable {table : Table} {s : Schema} {v : Value} {node : Node} {own own' : List Mismatch}

/-! ## The mismatches that the validator looks for -/

theorem Kind.accepts_iff {kind : Kind} : kind.accepts v = true ↔ v.kind = kind.name := by
  cases kind <;> cases v <;> simp [Kind.accepts, Value.kind, Kind.name]

/-- An ascending list of the numbers from one to another is the range between them. -/
theorem eq_range'_of_mem_iff {numbers : List Nat} {a b : Nat} (ascending : numbers.Pairwise (· < ·))
    (mem : ∀ i, i ∈ numbers ↔ a ≤ i ∧ i < b) : numbers = List.range' a (b - a) := by
  refine ascending.eq_of_mem_iff List.pairwise_lt_range' fun i => ?_
  rw [mem, List.mem_range'_1]
  omega

/-! ## What the rules say is what is raised -/

theorem mk_injective (path : Path) : Function.Injective (Failure.mk path) :=
  fun _ _ same => (Failure.mk.inj same).2

/-- Whatever the rules find at a node, the validator raises. -/
theorem Local.raised_eq (h : Local table node.schema node.value own) :
    raised table node = own.map (Failure.mk node.path) := by
  obtain ⟨path, schema, v, options⟩ := node
  cases h with
  | undeclared => rfl
  | met mem meets => exact raised_of_met ⟨_, mem, meets⟩
  | unmet none => exact raised_of_not_met fun ⟨s, mem, meets⟩ => none s mem meets
  | equal same => simp [raised, mismatches, same]
  | unequal differs => simp [raised, mismatches, differs]
  | nullable => simp [raised, mismatches]
  | @unexpectedNull s refuses =>
      cases s <;> simp_all [raised, mismatches, Schema.refusesNull]
  | @otherKind s v expected notNull expects differs =>
      cases s with
      | primitive p =>
          cases expects
          have refused : p.kind.accepts v = false := by
            simpa [Bool.eq_false_iff, Kind.accepts_iff] using differs
          cases v <;> simp_all [raised, mismatches]
      | list | tuple | object =>
          cases expects
          cases v <;> simp_all [raised, mismatches, Value.kind]
      | _ => cases expects
  | @scalar p v same =>
      have accepted := Kind.accepts_iff.2 same
      cases v <;> simp_all [raised, mismatches, Kind.accepts]
  | list => rfl
  | tuple ascending missing ascending' surplus =>
      rw [eq_range'_of_mem_iff ascending missing, eq_range'_of_mem_iff ascending' surplus]
      rfl
  | object => rw [← missingProperties_eq, ← unexpectedProperties_eq]; rfl

/-- The rules find one thing at a node at most. -/
theorem Local.unique {schema : Option Schema} (h : Local table schema v own)
    (h' : Local table schema v own') : own = own' := by
  have raised : raised table ⟨.root, schema, v, ⟨false, false⟩⟩ = own.map (Failure.mk .root) :=
    h.raised_eq
  have raised' : DataShape.raised table ⟨.root, schema, v, ⟨false, false⟩⟩ =
      own'.map (Failure.mk .root) := h'.raised_eq
  exact (mk_injective .root).list_map (raised.symm.trans raised')

/-- There is a rule for every schema that can be visited and every value. -/
theorem exists_local (reference : ∀ name, s ≠ .reference name)
    (named : ∀ name body, s ≠ .named name body) (v : Value) :
    ∃ own, Local table (some s) v own := by
  cases s with
  | primitive p =>
      by_cases null : v = .null
      · subst null
        obtain ⟨kind, nullable⟩ := p
        cases nullable with
        | true => exact ⟨_, .nullable⟩
        | false => exact ⟨_, .unexpectedNull rfl⟩
      · by_cases same : v.kind = p.kind.name
        · exact ⟨_, .scalar same⟩
        · exact ⟨_, .otherKind null rfl same⟩
  | list element =>
      cases v with
      | null => exact ⟨_, .unexpectedNull rfl⟩
      | list items => exact ⟨_, .list⟩
      | _ => exact ⟨_, .otherKind (by simp) rfl (by simp [Value.kind])⟩
  | tuple elements =>
      cases v with
      | null => exact ⟨_, .unexpectedNull rfl⟩
      | list items =>
          refine ⟨missingIndices items.length elements.length ++
            unexpectedIndices elements.length items.length,
            .tuple List.pairwise_lt_range' (fun i => ?_) List.pairwise_lt_range' fun i => ?_⟩
          · rw [List.mem_range'_1]
            omega
          · rw [List.mem_range'_1]
            omega
      | _ => exact ⟨_, .otherKind (by simp) rfl (by simp [Value.kind])⟩
  | object fields wildcard =>
      cases v with
      | null => exact ⟨_, .unexpectedNull rfl⟩
      | dict entries => exact ⟨_, .object⟩
      | _ => exact ⟨_, .otherKind (by simp) rfl (by simp [Value.kind])⟩
  | choice alternatives =>
      by_cases met : ∃ s ∈ alternatives, table.Meets s v
      · obtain ⟨s, mem, meets⟩ := met
        exact ⟨_, .met mem meets⟩
      · exact ⟨_, .unmet fun s mem meets => met ⟨s, mem, meets⟩⟩
  | literal expected =>
      cases same : v.same expected with
      | true => exact ⟨_, .equal same⟩
      | false => exact ⟨_, .unequal same⟩
  | reference name => exact absurd rfl (reference name)
  | named name body => exact absurd rfl (named name body)

/-! ## All nodes of a value -/

/-- The failures that nodes have for themselves, one node after the other. -/
inductive Found (table : Table) : List Node → List Failure → Prop
  | nil : Found table [] []
  | cons {node : Node} {nodes : List Node} {own : List Mismatch} {rest : List Failure} :
      Local table node.schema node.value own → Found table nodes rest →
      Found table (node :: nodes) (own.map (Failure.mk node.path) ++ rest)

theorem Found.eq_raised {nodes : List Node} {found : List Failure} (h : Found table nodes found) :
    found = nodes.flatMap (raised table) := by
  induction h with
  | nil => rfl
  | cons first _ ih => rw [List.flatMap_cons, first.raised_eq, ih]

/-- There is a rule for every node that can be visited. -/
theorem Node.exists_local (table : Table) (node : Node) (visited : ∀ s, node.schema = some s →
      (∀ name, s ≠ .reference name) ∧ ∀ name body, s ≠ .named name body) :
    ∃ own, Local table node.schema node.value own := by
  cases declared : node.schema with
  | none => exact ⟨_, .undeclared⟩
  | some s => exact DataShape.exists_local (visited s declared).1 (visited s declared).2 node.value

/-- What is raised at visited nodes is what the rules find there. -/
theorem found_raised {nodes : List Node} (each : ∀ node ∈ nodes, ∀ s, node.schema = some s →
      (∀ name, s ≠ .reference name) ∧ ∀ name body, s ≠ .named name body) :
    Found table nodes (nodes.flatMap (raised table)) := by
  induction nodes with
  | nil => exact .nil
  | cons node nodes ih =>
      obtain ⟨first, each⟩ := List.forall_mem_cons.1 each
      obtain ⟨own, found⟩ := node.exists_local table first
      rw [List.flatMap_cons, found.raised_eq]
      exact .cons found (ih each)

/-- The failures of a value are what the rules find at the nodes of the one listing,
parents before children.  It is the same if the schema is resolved anew. -/
theorem Resolved.failures_are_local_mismatches (r : Resolved) (v : Value) : ∃ nodes found,
    Visits r.table (r.task v) nodes ∧ Found r.table nodes found ∧
    (r.failures v).result = .ok found ∧
    (∀ nodes' found', Visits r.table (r.task v) nodes' → Found r.table nodes' found' →
      nodes' = nodes ∧ found' = found) ∧
    ∀ s : Schema, s.resolve.result = .ok r → (s.failures v).result = .ok found := by
  obtain ⟨calls, walks, kept, failures⟩ := r.exists_failures v
  have visits := Visits.of_walks walks kept
  have found : Found r.table (calls.map Prod.fst) (calls.flatMap fun call => raised r.table call.1) := by
    rw [← List.flatMap_map]
    refine found_raised fun node mem s declared => ?_
    obtain ⟨reference, named, -⟩ := visits.schema_of_mem mem declared
    exact ⟨reference, named⟩
  refine ⟨_, _, visits, found, failures, fun nodes' found' visits' again => ?_,
    fun s accepted => s.failures_eq_ok accepted failures⟩
  obtain rfl := visits'.unique visits
  exact ⟨rfl, again.eq_raised.trans found.eq_raised.symm⟩

end DataShape
