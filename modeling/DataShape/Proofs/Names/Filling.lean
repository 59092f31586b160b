import DataShape.Proofs.Names.Stripping

/-!
# Filling a table

One table can be filled by extracting any number of schemas, one after the other, and some
of the extractions may end at a clash of names.  Each of them only adds entries behind those
that are there (`extractInto_prefix`), so all of them together do (`fill_prefix`), and no
entry is ever lost or changed.

What one extraction adds can be read off the named types of its schema.  Without a clash it
adds all of them, and else those in front of the first one whose name is taken
(`extractions_keep_names`).
-/

namespace DataShape

open Schema (binding)

variable {table table' : Table} {s t : Schema} {name : String} {body : Schema}

/-! ## Entries behind others -/

/-- What is found in front is found. -/
theorem Entries.find?_of_prefix {α : Type} {entries entries' : Entries α} {key : String} {a : α}
    (le : entries <+: entries') (found : entries.find? key = some a) :
    entries'.find? key = some a := by
  obtain ⟨more, rfl⟩ := le
  induction entries with
  | nil => cases found
  | cons entry rest ih =>
      rw [List.cons_append, find?_cons]
      rw [find?_cons] at found
      by_cases here : entry.1 = key
      · rwa [if_pos here] at found ⊢
      · rw [if_neg here] at found ⊢
        exact ih found

theorem keys_append_bindings (table : Table) (types : List (String × Schema)) :
    Entries.keys (table ++ types.map binding) = table.keys ++ types.map Prod.fst := by
  rw [← Schema.keys_map_binding, Entries.keys, List.map_append]
  rfl

/-! ## One extraction after the other -/

/-- The table after several schemas were extracted into it, one after the other. -/
def Table.fill (table : Table) (schemas : List Schema) : Table :=
  schemas.foldl (fun table s => (s.extractInto table).2) table

/-- An extraction adds entries behind those of the table. -/
theorem Table.Filled.extractInto_prefix (filled : table.Filled) (s : Schema) :
    table <+: (s.extractInto table).2 := by
  rcases Schema.extractInto_cases filled.distinct_and_unnamed.1 s with
    ⟨-, run⟩ | ⟨done, _, _, _, -, -, -, run⟩
  · exact ⟨s.table, congrArg Prod.snd run.symm⟩
  · exact ⟨done, congrArg Prod.snd run.symm⟩

theorem Table.Filled.fill (filled : table.Filled) (schemas : List Schema) :
    (table.fill schemas).Filled := by
  induction schemas generalizing table with
  | nil => exact filled
  | cons s schemas ih => exact ih (.extract s filled)

/-- Any number of extractions add entries behind those of the table. -/
theorem Table.Filled.fill_prefix (filled : table.Filled) (schemas : List Schema) :
    table <+: table.fill schemas := by
  induction schemas generalizing table with
  | nil => exact List.prefix_refl table
  | cons s schemas ih => exact (filled.extractInto_prefix s).trans (ih (.extract s filled))

/-! ## What one extraction does -/

namespace Schema

/-- The named types in front of the first one whose name is taken, by the table or by one of
them. -/
structure Clashes (table : Table) (s : Schema) (done : List (String × Schema)) (name : String) :
    Prop where
  split : ∃ body rest, s.namedTypes = done ++ (name, body) :: rest
  distinct : (table.keys ++ done.map Prod.fst).Nodup
  taken : name ∈ table.keys ++ done.map Prod.fst

/-- Extraction either registers all named types, or those in front of the first one that
clashes. -/
theorem extractInto_outcome (distinct : table.keys.Nodup) (s : Schema) :
    ((table.keys ++ s.names).Nodup ∧
      s.extractInto table = (.ok s.strip, table ++ s.namedTypes.map binding)) ∨
    ∃ done name, Clashes table s done name ∧
      s.extractInto table = (.error (.duplicateName name), table ++ done.map binding) := by
  rcases extractInto_cases distinct s with
    ⟨nodup, run⟩ | ⟨done, name, body, rest, split, nodup, taken, run⟩
  · exact .inl ⟨by rwa [Schema.table, keys_append_bindings] at nodup, run⟩
  · obtain ⟨front, back, types, rfl, behind⟩ := List.map_eq_append_iff.1 split
    obtain ⟨⟨name', body'⟩, later, rfl, same, -⟩ := List.map_eq_cons_iff.1 behind
    obtain rfl : name' = name := congrArg Prod.fst same
    rw [keys_append_bindings] at nodup taken
    exact .inr ⟨front, name', ⟨⟨body', later, types⟩, nodup, taken⟩, run⟩

variable {done done' : List (String × Schema)} {name' : String}

/-- With a clash, a name comes twice. -/
theorem Clashes.not_nodup (h : Clashes table s done name) : ¬ (table.keys ++ s.names).Nodup := by
  obtain ⟨body, rest, split⟩ := h.split
  rw [names, split, List.map_append, List.map_cons, ← List.append_assoc]
  exact not_nodup_of_mem h.taken

/-- Behind one clash, nothing is the first one. -/
theorem Clashes.not_behind {between : List (String × Schema)} (h : Clashes table s done name)
    (h' : Clashes table s (done ++ (name, body) :: between) name') : False := by
  have distinct := h'.distinct
  rw [List.map_append, List.map_cons, ← List.append_assoc] at distinct
  exact not_nodup_of_mem h.taken distinct

/-- There is only one first clash. -/
theorem Clashes.unique (h : Clashes table s done name) (h' : Clashes table s done' name') :
    done = done' ∧ name = name' := by
  obtain ⟨body, rest, split⟩ := h.split
  obtain ⟨body', rest', split'⟩ := h'.split
  rcases List.append_eq_append_iff.1 (split.symm.trans split') with
    ⟨between, rfl, eq⟩ | ⟨between, rfl, eq⟩
  · cases between with
    | nil =>
        cases eq
        exact ⟨(List.append_nil _).symm, rfl⟩
    | cons entry between =>
        cases eq
        exact (h.not_behind h').elim
  · cases between with
    | nil =>
        cases eq
        exact ⟨List.append_nil _, rfl⟩
    | cons entry between =>
        cases eq
        exact (h'.not_behind h).elim

/-- The name that clashes has a body from before, from the table or from the schema. -/
theorem Clashes.exists_kept (h : Clashes table s done name) :
    ∃ kept, Entries.find? name (table ++ done.map binding) = some kept ∧
      (Entries.find? name table = some kept ∨ ∃ body, (name, body) ∈ done ∧ body.strip = kept) := by
  rcases List.mem_append.1 h.taken with known | own
  · obtain ⟨kept, found⟩ := Table.exists_find?_of_mem_keys known
    exact ⟨kept, Entries.find?_of_prefix (List.prefix_append _ _) found, .inl found⟩
  · obtain ⟨⟨_, body⟩, mem, rfl⟩ := List.mem_map.1 own
    have stored : (Entries.keys (table ++ done.map binding)).Nodup :=
      keys_append_bindings table done ▸ h.distinct
    refine ⟨body.strip, (Entries.find?_eq_some_iff stored).2 ?_, .inr ⟨body, mem, rfl⟩⟩
    exact List.mem_append_right _ (List.mem_map.2 ⟨_, mem, rfl⟩)

/-! ## All extractions -/

theorem extractInto_eq_ok_iff (distinct : table.keys.Nodup) {root : Schema} :
    s.extractInto table = (.ok root, table') ↔ (table.keys ++ s.names).Nodup ∧
      Strips s root ∧ table' = table ++ s.namedTypes.map binding := by
  rw [strips_iff]
  rcases extractInto_outcome distinct s with ⟨nodup, run⟩ | ⟨done, name, clash, run⟩
  · simp [run, nodup, eq_comm]
  · simp [run, clash.not_nodup]

theorem extractInto_eq_error_iff (distinct : table.keys.Nodup) {e : DefinitionError} :
    s.extractInto table = (.error e, table') ↔ ∃ done name, Clashes table s done name ∧
      e = .duplicateName name ∧ table' = table ++ done.map binding := by
  rcases extractInto_outcome distinct s with ⟨nodup, run⟩ | ⟨done, name, clash, run⟩
  · rw [run]
    constructor
    · intro same
      cases same
    · rintro ⟨done, name, clash, -, -⟩
      exact absurd nodup clash.not_nodup
  · rw [run]
    constructor
    · intro same
      cases same
      exact ⟨done, name, clash, rfl, rfl⟩
    · rintro ⟨done', name', clash', rfl, rfl⟩
      obtain ⟨rfl, rfl⟩ := clash.unique clash'
      rfl

/-- An extraction fails if a name comes twice in the schema or is in the table. -/
theorem exists_error_iff (distinct : table.keys.Nodup) :
    (∃ e, (s.extractInto table).1 = .error e) ↔
      ¬ s.names.Nodup ∨ ∃ name ∈ s.names, name ∈ table.keys := by
  have fails : (∃ e, (s.extractInto table).1 = .error e) ↔ ¬ (table.keys ++ s.names).Nodup := by
    rcases extractInto_outcome distinct s with ⟨nodup, run⟩ | ⟨done, name, clash, run⟩
    · simp [run, nodup]
    · simp [run, clash.not_nodup]
  have disjoint : (∀ a ∈ table.keys, ∀ b ∈ s.names, a ≠ b) ↔
      ¬ ∃ name ∈ s.names, name ∈ table.keys := by
    constructor
    · rintro apart ⟨name, own, known⟩
      exact apart name known name own rfl
    · rintro fresh name known _ own rfl
      exact fresh ⟨name, own, known⟩
  rw [fails, List.nodup_append, disjoint, ← not_and_or.trans (or_congr_right not_not)]
  exact not_congr (and_iff_right distinct)

/-- Two extractions succeed one after the other if the first one does, and then the second. -/
theorem run_bind_eq_ok_iff {α β : Type} {x : Extraction α} {f : α → Extraction β} {b : β} :
    (x >>= f).run.run table = (.ok b, table') ↔ ∃ a mid,
      x.run.run table = (.ok a, mid) ∧ (f a).run.run mid = (.ok b, table') := by
  rw [run_extraction_bind]
  rcases x.run.run table with ⟨e | a, mid⟩
  · constructor
    · intro run
      cases run
    · rintro ⟨a, mid, same, -⟩
      cases same
  · constructor
    · exact fun run => ⟨a, mid, rfl, run⟩
    · rintro ⟨a, mid, same, run⟩
      cases same
      exact run

/-- To extract a pair is to extract its two elements, one after the other. -/
theorem extractInto_pair_iff {pair : Schema} :
    (Schema.tuple [s, t]).extractInto table = (.ok pair, table') ↔ ∃ a b mid,
      s.extractInto table = (.ok a, mid) ∧ t.extractInto mid = (.ok b, table') ∧
        pair = .tuple [a, b] := by
  have steps : (Schema.tuple [s, t]).extract = do
      let a ← s.extract
      let b ← t.extract
      return .tuple [a, b] := by
    simp [extract, extractAll]
  have run : (Schema.tuple [s, t]).extractInto table = (do
      let a ← s.extract
      let b ← t.extract
      return .tuple [a, b] : Extraction Schema).run.run table :=
    congrArg (fun x : Extraction Schema => x.run.run table) steps
  rw [run, run_bind_eq_ok_iff]
  constructor
  · rintro ⟨a, mid, first, rest⟩
    obtain ⟨b, last, second, done⟩ := run_bind_eq_ok_iff.1 rest
    cases done
    exact ⟨a, b, mid, first, second, rfl⟩
  · rintro ⟨a, b, mid, first, second, rfl⟩
    exact ⟨a, mid, first, run_bind_eq_ok_iff.2 ⟨b, table', second, rfl⟩⟩

end Schema

/-- Extractions into one table keep all its names.  Whatever was extracted before, the table
has one body for each name and no named type in any body, and each entry stays as it is
through all later extractions.  An extraction fails exactly if a name comes twice in its
schema or is in the table.  It adds all named types of the schema with their stripped
bodies if it succeeds.  If it fails, it adds those in front of the first one that clashes,
and the name of this one keeps the body that it has.  To extract two schemas one after the
other is to extract the pair of both. -/
theorem Table.extractions_keep_names (earlier : List Schema) (s : Schema) (later : List Schema) :
    let table := Table.fill [] earlier
    (table.keys.Nodup ∧ table.Unnamed) ∧
    (∀ name body, Entries.find? name table = some body →
      Entries.find? name (table.fill (s :: later)) = some body) ∧
    ((∃ root, (s.extractInto table).1 = .ok root) ∨
      ∃ name, (s.extractInto table).1 = .error (.duplicateName name)) ∧
    ((∃ e, (s.extractInto table).1 = .error e) ↔
      ¬ s.names.Nodup ∨ ∃ name ∈ s.names, name ∈ table.keys) ∧
    (∀ root after, s.extractInto table = (.ok root, after) ↔ (table.keys ++ s.names).Nodup ∧
      Schema.Strips s root ∧ after = table ++ s.namedTypes.map binding) ∧
    (∀ e after, s.extractInto table = (.error e, after) ↔ ∃ done name kept,
      Schema.Clashes table s done name ∧ e = .duplicateName name ∧
        after = table ++ done.map binding ∧ Entries.find? name after = some kept ∧
        (Entries.find? name table = some kept ∨
          ∃ body, (name, body) ∈ done ∧ body.strip = kept)) ∧
    ∀ t pair after, (Schema.tuple [s, t]).extractInto table = (.ok pair, after) ↔
      ∃ a b mid, s.extractInto table = (.ok a, mid) ∧ t.extractInto mid = (.ok b, after) ∧
        pair = .tuple [a, b] := by
  intro table
  have filled : table.Filled := Table.Filled.empty.fill earlier
  have distinct := filled.distinct_and_unnamed.1
  refine ⟨filled.distinct_and_unnamed, fun name body found => ?_, ?_,
    Schema.exists_error_iff distinct, fun root after => Schema.extractInto_eq_ok_iff distinct,
    fun e after => ?_, fun t pair after => Schema.extractInto_pair_iff⟩
  · exact Entries.find?_of_prefix (filled.fill_prefix (s :: later)) found
  · rcases Schema.extractInto_outcome distinct s with ⟨-, run⟩ | ⟨done, name, -, run⟩
    · exact .inl ⟨_, congrArg Prod.fst run⟩
    · exact .inr ⟨name, congrArg Prod.fst run⟩
  · rw [Schema.extractInto_eq_error_iff distinct]
    constructor
    · rintro ⟨done, name, clash, rfl, rfl⟩
      obtain ⟨kept, found, before⟩ := clash.exists_kept
      exact ⟨done, name, kept, clash, rfl, rfl, found, before⟩
    · rintro ⟨done, name, _, clash, same, added, -, -⟩
      exact ⟨done, name, clash, same, added⟩

/-! ### A clash between two names -/

/-- A type, behind the named type that is taken for it. -/
def crossing : Schema := .tuple
  [.named "b" (.list (.reference "a")), .named "a" (.reference "b"), .named "c" (.literal .null)]

/-- With a type of the name `a` in the table, only `b` is added.  A later extraction adds `c`, and
then `a` still has the body that it had. -/
theorem crossing_keeps_names :
    crossing.extractInto (Table.fill [] [.named "a" (.literal .null)]) =
      (.error (.duplicateName "a"), [("a", .literal .null), ("b", .list (.reference "a"))]) ∧
    (∃ done, Schema.Clashes (Table.fill [] [.named "a" (.literal .null)]) crossing done "a") ∧
    Entries.find? "a" (Table.fill [("a", .literal .null)] [crossing, .named "c" (.reference "b")]) =
      some (.literal .null) := by
  have run : crossing.extractInto (Table.fill [] [.named "a" (.literal .null)]) =
      (.error (.duplicateName "a"), [("a", .literal .null), ("b", .list (.reference "a"))]) := rfl
  obtain ⟨-, stays, -, -, -, failed, -⟩ := Table.extractions_keep_names
    [.named "a" (.literal .null)] crossing [.named "c" (.reference "b")]
  obtain ⟨done, name, _, clash, same, -⟩ := (failed _ _).1 run
  cases same
  exact ⟨run, ⟨done, clash⟩, stays "a" _ rfl⟩

end DataShape
