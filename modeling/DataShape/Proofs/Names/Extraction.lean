import DataShape.Names.Extract
import DataShape.Proofs.Schema.Strip

/-!
# What extraction does

Extraction is two things at once.  It rebuilds the schema without its named
types, and it registers their bodies.  `extract_eq` takes the two apart: to
extract a schema is to register the entries of its table one after the other and
to return the stripped schema.

So the outcome only depends on whether names clash.  Without a clash all entries
come behind those of the old table.  With a clash the entries in front of the
first one that clashes stay (`registerAll_cases`).
-/

namespace DataShape

/-- Give several names their bodies, one after the other. -/
def registerAll : Table → Extraction Unit
  | [] => pure ()
  | (name, body) :: rest => do
      register name body
      registerAll rest

theorem registerAll_append (front back : Table) :
    registerAll (front ++ back) = (do registerAll front; registerAll back) := by
  induction front with
  | nil => simp [registerAll]
  | cons entry front ih => simp [registerAll, ih]

namespace Schema

/-! ## Extraction as registration -/

theorem extractAll_eq {ss : List Schema}
    (each : ∀ s ∈ ss, s.extract = do registerAll s.table; return s.strip) :
    extractAll ss = do
      registerAll ((namedTypesAll ss).map binding)
      return stripAll ss := by
  induction ss with
  | nil => simp [extractAll, namedTypesAll, stripAll, registerAll]
  | cons s ss ih =>
      have head := each s (by simp)
      have tail := ih fun t ht => each t (by simp [ht])
      simp [extractAll, head, tail, namedTypesAll, stripAll, registerAll_append, table]

theorem extractFields_eq {fs : List (Field Schema)}
    (each : ∀ f ∈ fs, f.schema.extract = do registerAll f.schema.table; return f.schema.strip) :
    extractFields fs = do
      registerAll ((namedTypesFields fs).map binding)
      return stripFields fs := by
  induction fs with
  | nil => simp [extractFields, namedTypesFields, stripFields, registerAll]
  | cons f fs ih =>
      have head := each f (by simp)
      have tail := ih fun g hg => each g (by simp [hg])
      simp [extractFields, head, tail, namedTypesFields, stripFields, registerAll_append, table]

theorem extractWildcard_eq {w : Option Schema}
    (each : ∀ s, w = some s → s.extract = do registerAll s.table; return s.strip) :
    extractWildcard w = do
      registerAll ((namedTypesWildcard w).map binding)
      return stripWildcard w := by
  cases w with
  | none => simp [extractWildcard, namedTypesWildcard, stripWildcard, registerAll]
  | some s => simp [extractWildcard, each s rfl, namedTypesWildcard, stripWildcard, table]

/-- To extract a schema is to register its table and to return the stripped schema. -/
theorem extract_eq (s : Schema) : s.extract = do registerAll s.table; return s.strip := by
  induction s with
  | primitive p => simp [extract, table, namedTypes, registerAll, strip]
  | list element ih => simp [extract, ih, table, namedTypes, strip]
  | tuple elements ih => simp [extract, extractAll_eq ih, table, namedTypes, strip]
  | object fields wildcard fieldsIh wildcardIh =>
      simp [extract, extractFields_eq fieldsIh, extractWildcard_eq wildcardIh, table, namedTypes,
        strip, registerAll_append]
  | choice alternatives ih => simp [extract, extractAll_eq ih, table, namedTypes, strip]
  | named name body ih =>
      simp [extract, ih, table, namedTypes, strip, registerAll_append, registerAll, binding]
  | reference name => simp [extract, table, namedTypes, registerAll, strip]
  | literal value => simp [extract, table, namedTypes, registerAll, strip]

end Schema

/-! ## Clashes -/

/-- After a first extraction the second one starts from the table of the first. -/
theorem run_extraction_bind {α β : Type} (x : Extraction α) (f : α → Extraction β)
    (table : Table) :
    (x >>= f).run.run table = match x.run.run table with
      | (.ok a, table') => (f a).run.run table'
      | (.error e, table') => (.error e, table') := by
  simp only [ExceptT.run_bind, StateT.run_bind]
  change (match x.run.run table with | (a, s) => _) = _
  obtain ⟨_ | _, table'⟩ := x.run.run table <;> rfl

/-- The first of several entries is registered unless its name is taken. -/
theorem registerAll_cons_run (table : Table) (name : String) (body : Schema) (rest : Table) :
    (registerAll ((name, body) :: rest)).run.run table =
      if table.has name then (.error (.duplicateName name), table)
      else (registerAll rest).run.run (table ++ [(name, body)]) := by
  have step : (register name body).run.run table =
      if table.has name then (.error (.duplicateName name), table)
      else (.ok (), table ++ [(name, body)]) := rfl
  rw [registerAll, run_extraction_bind, step]
  by_cases taken : table.has name <;> simp [taken]

/-- Either no name clashes and all entries are registered, or the entries in
front of the first clash are. -/
theorem registerAll_cases {table : Table} (distinct : table.keys.Nodup) (entries : Table) :
    ((Entries.keys (table ++ entries)).Nodup ∧
      (registerAll entries).run.run table = (.ok (), table ++ entries)) ∨
    ∃ done name body rest, entries = done ++ (name, body) :: rest ∧
      (Entries.keys (table ++ done)).Nodup ∧ name ∈ Entries.keys (table ++ done) ∧
      (registerAll entries).run.run table =
        (.error (.duplicateName name), table ++ done) := by
  induction entries generalizing table with
  | nil => exact .inl ⟨by simpa using distinct, by rw [List.append_nil]; rfl⟩
  | cons entry rest ih =>
      obtain ⟨name, body⟩ := entry
      rw [registerAll_cons_run]
      by_cases taken : table.has name = true
      · refine .inr ⟨[], name, body, rest, rfl, by simpa using distinct, ?_, ?_⟩
        · simpa using (Entries.has_iff_mem_keys name table).1 taken
        · simp [taken]
      · have fresh : name ∉ table.keys := fun mem => taken ((Entries.has_iff_mem_keys _ _).2 mem)
        have distinct' : (Entries.keys (table ++ [(name, body)])).Nodup := by
          simp only [Entries.keys, List.map_append, List.map_cons, List.map_nil]
          exact List.nodup_append.2 ⟨distinct, by simp, by
            rintro k hk _ hn rfl
            exact fresh (List.mem_singleton.1 hn ▸ hk)⟩
        rw [if_neg taken]
        rcases ih distinct' with ⟨nodup, run⟩ | ⟨done, name', body', rest', rfl, nodup, mem, run⟩
        · exact .inl ⟨by simpa using nodup, by simpa using run⟩
        · exact .inr ⟨(name, body) :: done, name', body', rest', rfl, by simpa using nodup,
            by simpa using mem, by simpa using run⟩

namespace Schema

/-- Extraction either registers all named types behind the entries of a table, or those
in front of the first one that carries the name of an earlier one. -/
theorem extractInto_cases {table : Table} (distinct : table.keys.Nodup) (s : Schema) :
    ((Entries.keys (table ++ s.table)).Nodup ∧
      s.extractInto table = (.ok s.strip, table ++ s.table)) ∨
    ∃ done name body rest, s.table = done ++ (name, body) :: rest ∧
      (Entries.keys (table ++ done)).Nodup ∧ name ∈ Entries.keys (table ++ done) ∧
      s.extractInto table = (.error (.duplicateName name), table ++ done) := by
  have run : s.extractInto table =
      (do registerAll s.table; return s.strip : Extraction _).run.run table :=
    congrArg (fun x : Extraction Schema => x.run.run table) (extract_eq s)
  rw [run_extraction_bind] at run
  rcases registerAll_cases distinct s.table with
    ⟨nodup, ok⟩ | ⟨done, name, body, rest, split, nodup, mem, error⟩
  · rw [ok] at run
    exact .inl ⟨nodup, run⟩
  · rw [error] at run
    exact .inr ⟨done, name, body, rest, split, nodup, mem, run⟩

/-- Extraction into the empty table either keeps all named types or ends at the first
name that an earlier one carries. -/
theorem extractInto_nil_cases (s : Schema) :
    (s.names.Nodup ∧ s.extractInto [] = (.ok s.strip, s.table)) ∨
    ∃ done name body rest, s.table = done ++ (name, body) :: rest ∧
      (Entries.keys done).Nodup ∧ name ∈ Entries.keys done ∧
      s.extractInto [] = (.error (.duplicateName name), done) := by
  have cases := @extractInto_cases [] List.nodup_nil s
  simpa only [List.nil_append, keys_table] using cases

theorem names_of_table_eq {s body : Schema} {name : String} {done rest : Table}
    (split : s.table = done ++ (name, body) :: rest) :
    s.names = Entries.keys done ++ name :: Entries.keys rest := by
  rw [← keys_table, split]
  simp [Entries.keys]

theorem not_nodup_of_mem {name : String} {front back : List String} (mem : name ∈ front) :
    ¬ (front ++ name :: back).Nodup :=
  fun nodup => (List.nodup_append.1 nodup).2.2 name mem name (by simp) rfl

/-- Extraction succeeds exactly if no two named types carry one name. -/
theorem extractInto_nil_ok_iff {s root : Schema} {table : Table} :
    s.extractInto [] = (.ok root, table) ↔ s.names.Nodup ∧ root = s.strip ∧ table = s.table := by
  rcases extractInto_nil_cases s with ⟨nodup, run⟩ | ⟨done, name, body, rest, split, -, mem, run⟩
  · simp [run, nodup, eq_comm]
  · have clash : ¬ s.names.Nodup := names_of_table_eq split ▸ not_nodup_of_mem mem
    simp [run, clash]

end Schema

end DataShape
