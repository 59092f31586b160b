import DataShape.Proofs.Names.Acceptance
import DataShape.Proofs.Names.Unfolding

/-!
# What a stripped schema is

A schema *strips* to another one that has the bodies of the named types in the place of
the named types, and otherwise says the same everywhere.  This is said with two rules,
one for named types and one for all other nodes, and it holds of `strip` and of nothing
else (`strips_iff`).  A schema without named types strips to itself.

`extractNamed_strips` sums up what extraction into an empty table does.  A table that was
filled by extracting schemas one after the other has distinct names and stripped bodies
(`Table.Filled.distinct_and_unnamed`).
-/

namespace DataShape

theorem Field.eq_of_head {f g : Field Schema} (head : f.head = g.head)
    (schema : f.schema = g.schema) : f = g := by
  obtain ⟨name, optional, s⟩ := f
  obtain ⟨rfl, rfl⟩ := Prod.mk.inj head
  cases schema
  rfl

namespace Schema

variable {s t : Schema}

/-- The second schema is the first one with every named type replaced by what its body
strips to. -/
inductive Strips : Schema → Schema → Prop
  | named {name : String} {body t : Schema} : Strips body t → Strips (.named name body) t
  | node {s t : Schema} : (∀ name body, s ≠ .named name body) → Head Eq s t →
      List.Forall₂ Strips s.children t.children → Strips s t

/-- A schema without named types. -/
def Unnamed (s : Schema) : Prop := ∀ name body, ¬ Part (.named name body) s

/-! ## The stripped schema -/

theorem named_or_other (s : Schema) :
    (∃ name body, s = .named name body) ∨ ∀ name body, s ≠ .named name body := by
  cases s with
  | named name body => exact .inl ⟨name, body, rfl⟩
  | _ => exact .inr fun name body eq => nomatch eq

theorem Head.symm (h : Head Eq s t) : Head Eq t s := by
  cases s <;> cases t <;> simp_all [Head]

/-- A node is known from what it says and from its children. -/
theorem Head.eq_of_children (head : Head Eq s t) (below : s.children = t.children) : s = t := by
  cases s <;> cases t <;> simp only [Head, children] at head below
  case object.object fs w gs x =>
    have length := congrArg List.length head.1
    rw [List.length_map, List.length_map] at length
    obtain ⟨schemas, wildcards⟩ := List.append_inj below (by simpa using length)
    have fields : List.Forall₂ (fun f g => f.head = g.head ∧ f.schema = g.schema) fs gs := by
      rw [Table.forall₂_fields_iff, schemas, List.forall₂_eq_eq_eq]
      exact ⟨head.1, rfl⟩
    have fields := fields.imp fun _ _ h => Field.eq_of_head h.1 h.2
    rw [List.forall₂_eq_eq_eq] at fields
    have wildcard : w = x := by cases w <;> cases x <;> simp_all
    rw [fields, wildcard]
  all_goals simp_all

/-- A node other than a named type says the same once it is stripped. -/
theorem head_strip (h : ∀ name body, s ≠ .named name body) : Head Eq s s.strip := by
  cases s with
  | object fields wildcard =>
      simp [strip, Head, stripFields_eq_map, stripWildcard_eq_map, Function.comp_def, Field.head]
  | named name body => exact absurd rfl (h name body)
  | _ => simp [strip, Head]

theorem ownName_eq_nil (h : ∀ name body, s ≠ .named name body) : s.ownName = [] := by
  cases s with
  | named name body => exact absurd rfl (h name body)
  | _ => rfl

theorem strips_strip (s : Schema) : Strips s s.strip := by
  induction s using children_ind with
  | step s ih =>
      rcases s.named_or_other with ⟨name, body, rfl⟩ | other
      · exact .named (ih body (by simp [children]))
      · refine .node other (head_strip other) ?_
        rw [children_strip (ownName_eq_nil other), List.forall₂_map_right_iff, List.forall₂_same]
        exact ih

theorem Strips.eq_strip (h : Strips s t) : t = s.strip := by
  induction s using children_ind generalizing t with
  | step s ih =>
      cases h with
      | @named _ body _ strips => exact ih body (by simp [children]) strips
      | node other head below =>
          refine (head.symm.trans (head_strip other)).eq_of_children ?_
          have stripped : List.Forall₂ (fun a c => ∀ b, Strips c b → b = a)
              (s.children.map strip) s.children := by
            rw [List.forall₂_map_left_iff, List.forall₂_same]
            exact fun c mem b => ih c mem
          have same := forall₂_comp stripped below
          rw [children_strip (ownName_eq_nil other), ← List.forall₂_eq_eq_eq]
          exact same.flip

/-- A schema strips to `strip` and to nothing else. -/
theorem strips_iff : Strips s t ↔ t = s.strip := by
  constructor
  · exact Strips.eq_strip
  · intro eq
    exact eq ▸ s.strips_strip

theorem Unnamed.ne_named (h : s.Unnamed) (name : String) (body : Schema) : s ≠ .named name body :=
  fun eq => h name body (eq ▸ .self)

theorem Unnamed.part (h : s.Unnamed) (part : Part t s) : t.Unnamed :=
  fun name body inner => h name body (inner.trans part)

/-- What holds of all schemas without named types holds throughout them. -/
theorem Throughout.of_unnamed {P : Schema → Prop} (unnamed : ∀ u, u.Unnamed → P u)
    (h : s.Unnamed) : s.Throughout P :=
  fun t part => unnamed t (h.part part)

/-- A schema without named types strips to itself. -/
theorem Unnamed.strip_eq (h : s.Unnamed) : s.strip = s := by
  have strips : Strips s s := by
    induction s using children_ind with
    | step s ih =>
        refine .node h.ne_named (.refl s) ?_
        rw [List.forall₂_same]
        exact fun c mem => ih c mem (h.part (.of_mem mem))
  exact strips.eq_strip.symm

theorem Unnamed.namedTypes_eq (h : s.Unnamed) : s.namedTypes = [] := by
  rw [List.eq_nil_iff_forall_not_mem]
  rintro ⟨name, body⟩ mem
  exact h name body (mem_namedTypes_iff.1 mem)

theorem unnamed_strip (s : Schema) : s.strip.Unnamed := fun _ _ => not_part_named_strip

theorem unnamed_of_mem_table {x : String × Schema} (mem : x ∈ s.table) : x.2.Unnamed := by
  obtain ⟨body, -, stripped⟩ := mem_table_iff.1 mem
  exact stripped ▸ body.unnamed_strip

/-! ## Extraction -/

theorem extractNamed_eq_ok_iff {table : Table} {root : Schema} :
    s.extractNamed = .ok (table, root) ↔ s.names.Nodup ∧ root = s.strip ∧ table = s.table := by
  rw [← extractInto_nil_ok_iff, extractNamed]
  obtain ⟨_ | _, _⟩ := s.extractInto []
  · simp
  · simp [and_comm]

/-- A list has no two names that come up again for the first time. -/
theorem again_unique {name name' : String} {front front' back back' : List String}
    (split : front ++ name :: back = front' ++ name' :: back') (nodup : front.Nodup)
    (again : name ∈ front) (nodup' : front'.Nodup) (again' : name' ∈ front') : name = name' := by
  rcases List.append_eq_append_iff.1 split with ⟨between, eq, rest⟩ | ⟨between, eq, rest⟩
  · cases between with
    | nil => exact (List.cons.inj rest).1
    | cons m between =>
        obtain ⟨rfl, -⟩ := List.cons.inj rest
        exact absurd nodup' (eq ▸ not_nodup_of_mem again)
  · cases between with
    | nil => exact (List.cons.inj rest).1.symm
    | cons m between =>
        obtain ⟨rfl, -⟩ := List.cons.inj rest
        exact absurd nodup (eq ▸ not_nodup_of_mem again')

/-- Extraction ends at the first name that comes up again. -/
theorem extractNamed_eq_error_iff {e : DefinitionError} : s.extractNamed = .error e ↔
    ∃ front name back, s.names = front ++ name :: back ∧ front.Nodup ∧ name ∈ front ∧
      e = .duplicateName name := by
  rw [extractNamed]
  rcases extractInto_nil_cases s with
    ⟨distinct, run⟩ | ⟨done, name, body, rest, split, nodup, again, run⟩
  · rw [run]
    constructor
    · intro failed
      cases failed
    · rintro ⟨front, name, back, split, -, again, -⟩
      exact absurd (split ▸ distinct) (not_nodup_of_mem again)
  · have names := names_of_table_eq split
    rw [run]
    constructor
    · intro failed
      exact ⟨_, name, _, names, nodup, again, (Except.error.inj failed).symm⟩
    · rintro ⟨front, name', back, split', nodup', again', rfl⟩
      rw [again_unique (names.symm.trans split') nodup again nodup' again']

/-- A schema without named types is its own root, with an empty table. -/
theorem Unnamed.extractNamed_eq (h : s.Unnamed) : s.extractNamed = .ok ([], s) := by
  rw [extractNamed_eq_ok_iff, names, table, h.namedTypes_eq, h.strip_eq]
  exact ⟨List.nodup_nil, rfl, rfl⟩

/-- Extraction succeeds exactly if no two named types carry one name, and else it ends at
the first name that comes up again.  If it succeeds, the root is the stripped schema, the
table has one body for each named type, and nothing is left to be extracted. -/
theorem extractNamed_strips (s : Schema) :
    ((∃ table root, s.extractNamed = .ok (table, root)) ↔ s.names.Nodup) ∧
    (∀ table root, s.extractNamed = .ok (table, root) →
      Strips s root ∧ table.keys = s.names ∧
      (∀ name body, Part (.named name body) s →
        ∃ t, Entries.find? name table = some t ∧ Strips body t) ∧
      root.Unnamed ∧ (∀ x ∈ table, x.2.Unnamed ∧ Part x.2 root) ∧
      root.extractNamed = .ok ([], root)) ∧
    ∀ e, s.extractNamed = .error e ↔
      ∃ front name back, s.names = front ++ name :: back ∧ front.Nodup ∧ name ∈ front ∧
        e = .duplicateName name := by
  refine ⟨?_, ?_, fun e => extractNamed_eq_error_iff⟩
  · constructor
    · intro ⟨table, root, extracted⟩
      exact (extractNamed_eq_ok_iff.1 extracted).1
    · intro distinct
      exact ⟨_, _, extractNamed_eq_ok_iff.2 ⟨distinct, rfl, rfl⟩⟩
  · intro table root extracted
    obtain ⟨distinct, rfl, rfl⟩ := extractNamed_eq_ok_iff.1 extracted
    refine ⟨s.strips_strip, s.keys_table, ?_, s.unnamed_strip, ?_, s.unnamed_strip.extractNamed_eq⟩
    · intro name body part
      exact ⟨body.strip, (find?_table_iff distinct).2 ⟨body, part, rfl⟩, body.strips_strip⟩
    · exact fun x mem => ⟨unnamed_of_mem_table mem, part_of_mem_table mem⟩

-- The outer type carries the name of the inner one, but it is registered after its body, where
-- another name comes up again first.
example : extractNamed (.named "a" (.tuple [.named "a" (.literal .null),
      .named "b" (.literal .null), .named "b" (.literal .null)])) =
    .error (.duplicateName "b") := rfl

end Schema

/-! ## Filled tables -/

/-- The tables that come out of an empty one by extracting one schema after the other,
whether names clash or not. -/
inductive Table.Filled : Table → Prop
  | empty : Filled []
  | extract {table : Table} (s : Schema) : Filled table → Filled (s.extractInto table).2

/-- No body of the table has a named type in it. -/
def Table.Unnamed (table : Table) : Prop := ∀ x ∈ table, x.2.Unnamed

/-- A filled table has one body for each name, and all bodies are stripped. -/
theorem Table.Filled.distinct_and_unnamed {table : Table} (filled : table.Filled) :
    table.keys.Nodup ∧ table.Unnamed := by
  induction filled with
  | empty => exact ⟨List.nodup_nil, fun x mem => nomatch mem⟩
  | @extract table s _ ih =>
      obtain ⟨distinct, unnamed⟩ := ih
      rcases Schema.extractInto_cases distinct s with
        ⟨nodup, run⟩ | ⟨done, name, body, rest, split, nodup, -, run⟩
      · rw [run]
        refine ⟨nodup, fun x mem => ?_⟩
        exact (List.mem_append.1 mem).elim (unnamed x) Schema.unnamed_of_mem_table
      · rw [run]
        refine ⟨nodup, fun x mem => ?_⟩
        refine (List.mem_append.1 mem).elim (unnamed x) fun mem => ?_
        exact Schema.unnamed_of_mem_table (split ▸ List.mem_append_left _ mem)

end DataShape
