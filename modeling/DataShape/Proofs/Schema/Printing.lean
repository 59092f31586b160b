import Mathlib.Data.List.Nodup
import DataShape.Proofs.Schema.Grammar
import DataShape.Proofs.Schema.Like
import DataShape.Proofs.Value.Json

/-!
# What is read back from a written schema

`ReadsBack s t` says that the definition written for `s` is parsed as `t`.  Each kind
of node is put into a form that speaks of the children only.  A tuple with one
element comes back as a list, a choice of nothing does not come back, and a literal
comes back as its JSON tree lets it.

The one kind with more to it is the object schema, where names are turned into keys
and several declarations may be written under one key.  An object schema comes back
with the same names, modifiers and wildcard exactly if its names are distinct and
each of them is printable (`readsBack_object_iff`).  If two keys were equal, then a
member would be missing, and if a field had the key of the wildcard, then a wildcard
would come back that was not written.
-/

namespace DataShape

open Definition

/-! ## Printable schemas -/

/-- The key that is written for the field. -/
def Field.key {α : Type} (f : Field α) : String := Token.ofKey f.optional f.name

/-- The name of the field does not start with a blank.  It is not empty if a modifier
stands in front of it, and else it is none of the special keys and starts with no
modifier. -/
def Field.Printable {α : Type} (f : Field α) : Prop :=
  Text.Flush f.name.toList ∧ (f.optional = true → f.name ≠ "") ∧
    (f.optional = false → f.name ≠ tagKey ∧ f.name ≠ wildcardKey ∧
      ∀ rest, ¬ Token.Leads Token.optionalWord rest f.name.toList)

theorem readKey_tagKey : Token.readKey tagKey = (false, tagKey) := by decide

theorem readKey_wildcardKey : Token.readKey wildcardKey = (false, wildcardKey) := by decide

/-- A field comes back if its key reads as it and is none of the two special keys. -/
theorem Field.printable_iff {α : Type} {f : Field α} : f.Printable ↔
    Token.Reads Token.optionalWord f.optional f.name f.key ∧ f.key ≠ tagKey ∧
      f.key ≠ wildcardKey := by
  constructor
  · rintro ⟨flush, nonempty, plain⟩
    have reads := Token.reads_ofKey_iff.2 ⟨flush, nonempty, fun required => (plain required).2.2⟩
    refine ⟨reads, fun eq => ?_, fun eq => ?_⟩
    · obtain ⟨required, eq⟩ := (Token.ofKey_eq_iff reads readKey_tagKey).1 eq
      exact (plain required).1 eq
    · obtain ⟨required, eq⟩ := (Token.ofKey_eq_iff reads readKey_wildcardKey).1 eq
      exact (plain required).2.1 eq
  · rintro ⟨reads, noTag, noWildcard⟩
    obtain ⟨flush, nonempty, plain⟩ := Token.reads_ofKey_iff.1 reads
    refine ⟨flush, nonempty, fun required => ⟨fun eq => ?_, fun eq => ?_, plain required⟩⟩
    · exact noTag ((Token.ofKey_eq_iff reads readKey_tagKey).2 ⟨required, eq⟩)
    · exact noWildcard ((Token.ofKey_eq_iff reads readKey_wildcardKey).2 ⟨required, eq⟩)

namespace Schema

/-- What a node has to satisfy to come back if its children do. -/
def PrintableHere : Schema → Prop
  | .tuple elements => elements.length ≠ 1
  | .object fields _ => (fields.map Field.name).Nodup ∧ ∀ f ∈ fields, f.Printable
  | .choice alternatives => alternatives ≠ []
  | .literal value => value.Finite
  | _ => True

/-- Every node of the schema is printable. -/
def Printable (s : Schema) : Prop := ∀ t, Part t s → t.PrintableHere

theorem printable_iff {s : Schema} :
    s.Printable ↔ s.PrintableHere ∧ ∀ c ∈ s.children, c.Printable := by
  constructor
  · intro printable
    exact ⟨printable s .self, fun c mem t part => printable t (.child mem part)⟩
  · intro ⟨here, below⟩ t part
    cases part with
    | self => exact here
    | child mem part => exact below _ mem t part

/-- The second schema is read back from the definition of the first. -/
def ReadsBack (s t : Schema) : Prop := parse s.toDefinition = .ok t

variable {s t : Schema} {ss ts : List Schema} {fs gs : List (Field Schema)} {w x : Option Schema}
  {ds : List Json}

/-! ## Parsing what the builders make -/

theorem parse_ofPrimitive (p : Primitive) :
    parse (.string (Token.ofPrimitive p)) = .ok (.primitive p) := by
  rw [parse, Token.readPrimitive_ofPrimitive]
  rfl

theorem parse_array : parse (.array ds) = (parseAll ds).map ofElements := rfl

theorem parse_choice_eq_ok_iff : parse (Definition.choice ds) = .ok t ↔
    ds ≠ [] ∧ ∃ ts, parseAll ds = .ok ts ∧ .choice ts = t := by
  refine Iff.trans parseChoices_eq_ok_iff ?_
  constructor
  · rintro ⟨items, ts, found, nonempty, all, rfl⟩
    obtain rfl : ds = items := Json.array.inj (Option.some.inj found)
    exact ⟨nonempty, ts, all, rfl⟩
  · rintro ⟨nonempty, ts, all, rfl⟩
    exact ⟨ds, ts, rfl, nonempty, all, rfl⟩

theorem parse_named (name : String) (d : Json) :
    parse (Definition.named name d) = (parse d).map (.named name) := rfl

theorem parse_reference (name : String) :
    parse (Definition.reference name) = .ok (.reference name) := rfl

theorem parse_literal (json : Json) :
    parse (Definition.literal json) = .ok (.literal (.ofJson json)) := rfl

/-! ## Nodes that come back -/

theorem toDefinitions_eq_map (ss : List Schema) : toDefinitions ss = ss.map toDefinition := by
  induction ss with
  | nil => rfl
  | cons s ss ih => rw [toDefinitions, ih, List.map_cons]

theorem parseAll_toDefinitions_eq_ok_iff :
    parseAll (toDefinitions ss) = .ok ts ↔ List.Forall₂ ReadsBack ss ts := by
  rw [parseAll_eq_ok_iff, toDefinitions_eq_map]
  exact forall₂_iff_forall_zip.symm.trans
    (List.forall₂_map_left_iff (R := fun d t => parse d = .ok t))

theorem readsBack_primitive_iff {p : Primitive} :
    ReadsBack (.primitive p) t ↔ .primitive p = t := by
  show parse (.string (Token.ofPrimitive p)) = .ok t ↔ _
  rw [parse_ofPrimitive, Except.ok.injEq]

theorem readsBack_list_iff : ReadsBack (.list s) t ↔ ∃ u, ReadsBack s u ∧ .list u = t := by
  show parse (.array (toDefinitions [s])) = .ok t ↔ _
  rw [parse_array, except_map_eq_ok_iff]
  simp only [parseAll_toDefinitions_eq_ok_iff, List.forall₂_cons_left_iff,
    List.forall₂_nil_left_iff]
  constructor
  · rintro ⟨_, ⟨u, _, back, rfl, rfl⟩, rfl⟩
    exact ⟨u, back, rfl⟩
  · rintro ⟨u, back, rfl⟩
    exact ⟨[u], ⟨u, [], back, rfl, rfl⟩, rfl⟩

theorem readsBack_tuple_iff :
    ReadsBack (.tuple ss) t ↔ ∃ ts, List.Forall₂ ReadsBack ss ts ∧ ofElements ts = t := by
  show parse (.array (toDefinitions ss)) = .ok t ↔ _
  rw [parse_array, except_map_eq_ok_iff]
  simp only [parseAll_toDefinitions_eq_ok_iff]

theorem readsBack_choice_iff : ReadsBack (.choice ss) t ↔
    ss ≠ [] ∧ ∃ ts, List.Forall₂ ReadsBack ss ts ∧ .choice ts = t := by
  show parse (Definition.choice (toDefinitions ss)) = .ok t ↔ _
  rw [parse_choice_eq_ok_iff, toDefinitions_eq_map, ne_eq, List.map_eq_nil_iff,
    ← toDefinitions_eq_map]
  simp only [parseAll_toDefinitions_eq_ok_iff]

theorem readsBack_named_iff {name : String} :
    ReadsBack (.named name s) t ↔ ∃ u, ReadsBack s u ∧ .named name u = t := by
  show parse (Definition.named name s.toDefinition) = .ok t ↔ _
  rw [parse_named, except_map_eq_ok_iff]
  rfl

theorem readsBack_reference_iff {name : String} :
    ReadsBack (.reference name) t ↔ .reference name = t := by
  show parse (Definition.reference name) = .ok t ↔ _
  rw [parse_reference, Except.ok.injEq]

theorem readsBack_literal_iff {v : Value} :
    ReadsBack (.literal v) t ↔ .literal (.ofJson v.toJson) = t := by
  show parse (Definition.literal v.toJson) = .ok t ↔ _
  rw [parse_literal, Except.ok.injEq]

/-! ## Object schemas -/

/-- The keys that are written for an object schema and what they are written for.  Equal
keys are still there. -/
def declarations (fs : List (Field Schema)) (w : Option Schema) : List (String × Schema) :=
  fs.map (fun f => (f.key, f.schema)) ++ w.toList.map fun s => (wildcardKey, s)

/-- The members that are written, unless a key is written twice. -/
def written (fs : List (Field Schema)) (w : Option Schema) : List (String × Json) :=
  (declarations fs w).map fun p => (p.1, p.2.toDefinition)

/-- The schemas that are written are the children. -/
theorem map_snd_declarations : (declarations fs w).map Prod.snd = (object fs w).children := by
  simp [declarations, children, Function.comp_def]

theorem toDefinition_object :
    toDefinition (.object fs w) = .object (Entries.ofPairs (written fs w)) := by
  have fields : ∀ stored, addFields fs stored =
      (fs.map fun f => (f.key, f.schema.toDefinition)).foldl Entries.store stored := by
    induction fs with
    | nil => intro stored; rfl
    | cons f fs ih => intro stored; rw [addFields, ih]; rfl
  have stored : Entries.ofPairs (written fs w) = (written fs w).foldl Entries.store [] := rfl
  rw [toDefinition, fields, stored, written, declarations]
  cases w <;> simp [addWildcard, Function.comp_def, Entries.store]

/-- Keys that are written for fields and a wildcard declare fields that the keys read as,
and a wildcard if there was one. -/
theorem declares_declarations_iff (plain : ∀ f ∈ fs, f.key ≠ wildcardKey) :
    Declares (Entries.keys (declarations fs w)) ss gs x ↔
      List.Forall₂ (fun f g => Token.Reads Token.optionalWord g.optional g.name f.key) fs gs ∧
        x.isSome = w.isSome ∧ ss = (object gs x).children := by
  induction fs generalizing ss gs with
  | nil =>
      rw [List.forall₂_nil_left_iff]
      cases w with
      | none =>
          constructor
          · intro declares
            cases declares
            exact ⟨rfl, rfl, rfl⟩
          · rintro ⟨rfl, none, rfl⟩
            obtain rfl := Option.not_isSome_iff_eq_none.1 (ne_true_of_eq_false none)
            exact .nil
      | some s =>
          constructor
          · intro declares
            cases declares with
            | wildcard declares =>
                cases declares
                exact ⟨rfl, rfl, rfl⟩
            | field other => exact absurd rfl other
          · rintro ⟨rfl, some, rfl⟩
            obtain ⟨t, rfl⟩ := Option.isSome_iff_exists.1 some
            exact .wildcard .nil
  | cons f fs ih =>
      obtain ⟨head, plain⟩ := List.forall_mem_cons.1 plain
      show Declares (f.key :: Entries.keys (declarations fs w)) ss gs x ↔ _
      rw [List.forall₂_cons_left_iff]
      constructor
      · intro declares
        generalize key : f.key = k at declares
        cases declares with
        | wildcard => exact absurd key head
        | field _ reads declares =>
            obtain ⟨each, wildcard, rfl⟩ := (ih plain).1 declares
            exact ⟨⟨_, _, key ▸ reads, each, rfl⟩, wildcard, rfl⟩
      · rintro ⟨⟨g, gs, reads, each, rfl⟩, wildcard, rfl⟩
        exact .field head reads ((ih plain).2 ⟨each, wildcard, rfl⟩)

theorem keys_declarations : Entries.keys (declarations fs w) =
    fs.map Field.key ++ w.toList.map fun _ => wildcardKey := by
  simp [Entries.keys, declarations, Function.comp_def]

theorem keys_written : Entries.keys (written fs w) = Entries.keys (declarations fs w) := by
  simp [Entries.keys, written, Function.comp_def]

/-- If no field is missing among those that are read back, then no key was written
twice. -/
theorem written_stored (length : gs.length = fs.length) (wildcards : x.isSome = w.isSome)
    (declares : Declares (Entries.keys (Entries.ofPairs (written fs w))) ss gs x) :
    (Entries.keys (declarations fs w)).Nodup ∧
      Entries.ofPairs (written fs w) = written fs w := by
  rcases Entries.ofPairs_cases (written fs w) with stored | ⟨-, less⟩
  · rwa [keys_written] at stored
  · have read := declares.length_le
    have keys : (Entries.keys (Entries.ofPairs (written fs w))).length =
        (Entries.ofPairs (written fs w)).length := List.length_map _
    have all : (written fs w).length = fs.length + w.toList.length := by
      simp [written, declarations]
    have same : x.toList.length = w.toList.length := by
      cases w <;> cases x <;> simp_all
    omega

theorem names_eq (heads : gs.map Field.head = fs.map Field.head) :
    gs.map Field.name = fs.map Field.name := by
  simpa [Field.head, Function.comp_def] using congrArg (List.map Prod.fst) heads

/-- Where every field comes back, every key reads as the field it was written for. -/
theorem forall₂_reads_iff (heads : gs.map Field.head = fs.map Field.head) :
    List.Forall₂ (fun f g => Token.Reads Token.optionalWord g.optional g.name f.key) fs gs ↔
      ∀ f ∈ fs, Token.Reads Token.optionalWord f.optional f.name f.key := by
  have reads := fun hs : List (Field Schema) => List.forall₂_map_right_iff (l := fs) (u := hs)
    (f := Field.head) (R := fun f h => Token.Reads Token.optionalWord h.2 h.1 f.key)
  exact (reads gs).symm.trans (heads ▸ (reads fs).trans List.forall₂_same)

/-- Keys that read as they should are distinct if the names are. -/
theorem nodup_keys_declarations (names : (fs.map Field.name).Nodup)
    (printable : ∀ f ∈ fs, f.Printable) : (Entries.keys (declarations fs w)).Nodup := by
  have keys : (fs.map Field.key).Nodup := by
    have read : (fs.map Field.key).map (fun key => (Token.readKey key).2) = fs.map Field.name := by
      rw [List.map_map]
      refine List.map_congr_left fun f mem => ?_
      have reads := (Field.printable_iff.1 (printable f mem)).1
      exact congrArg Prod.snd (Token.readKey_eq_iff.2 reads)
    exact List.Nodup.of_map _ (read ▸ names)
  rw [keys_declarations]
  refine List.nodup_append.2 ⟨keys, by cases w <;> simp, ?_⟩
  intro key field _ wildcard eq
  obtain ⟨f, mem, rfl⟩ := List.mem_map.1 field
  obtain ⟨_, _, rfl⟩ := List.mem_map.1 wildcard
  exact (Field.printable_iff.1 (printable f mem)).2.2 eq

/-- If a wildcard is read back only if one was written, then no key of a field is taken
for the key of the wildcard. -/
theorem key_ne_wildcardKey (distinct : (Entries.keys (declarations fs w)).Nodup)
    (wildcards : x.isSome = w.isSome)
    (declares : Declares (Entries.keys (declarations fs w)) ss gs x) :
    ∀ f ∈ fs, f.key ≠ wildcardKey := by
  intro f mem eq
  rw [keys_declarations] at distinct declares
  have field : wildcardKey ∈ fs.map Field.key := List.mem_map.2 ⟨f, mem, eq⟩
  have read : x.isSome = true := declares.isSome_iff.2 (List.mem_append_left _ field)
  obtain ⟨s, rfl⟩ := Option.isSome_iff_exists.1 (wildcards ▸ read)
  exact (List.nodup_append.1 distinct).2.2 _ field wildcardKey (by simp) rfl

/-- The definitions that are written are those of the children. -/
theorem forall₂_children_iff : List.Forall₂ ReadsBack (object fs w).children ss ↔
    (written fs w).length = ss.length ∧
      ∀ y ∈ (written fs w).zip ss, parse y.1.2 = .ok y.2 := by
  have members : List.Forall₂ (fun m s => parse m.2 = .ok s) (written fs w) ss ↔
      List.Forall₂ (fun p s => ReadsBack p.2 s) (declarations fs w) ss :=
    List.forall₂_map_left_iff
  rw [← map_snd_declarations, List.forall₂_map_left_iff, ← members, forall₂_iff_forall_zip]

/-- An object schema comes back with the same names, modifiers and wildcard exactly if it
is printable and its children come back. -/
theorem readsBack_object_iff (heads : gs.map Field.head = fs.map Field.head)
    (wildcards : x.isSome = w.isSome) : ReadsBack (.object fs w) (.object gs x) ↔
      PrintableHere (.object fs w) ∧
        List.Forall₂ ReadsBack (object fs w).children (object gs x).children := by
  rw [ReadsBack, toDefinition_object, parse_object_eq_ok_object_iff]
  constructor
  · rintro ⟨untagged, schemas, length, each, declares, names⟩
    obtain ⟨distinct, stored⟩ :=
      written_stored (by simpa using congrArg List.length heads) wildcards declares
    rw [stored] at untagged length each declares
    rw [Entries.find?_eq_none_iff, keys_written] at untagged
    rw [keys_written] at declares
    have plain := key_ne_wildcardKey distinct wildcards declares
    obtain ⟨reads, -, rfl⟩ := (declares_declarations_iff plain).1 declares
    refine ⟨⟨names_eq heads ▸ names, fun f mem => Field.printable_iff.2 ?_⟩,
      forall₂_children_iff.2 ⟨length, each⟩⟩
    refine ⟨(forall₂_reads_iff heads).1 reads f mem, fun eq => untagged ?_, plain f mem⟩
    rw [keys_declarations]
    exact List.mem_append_left _ (List.mem_map.2 ⟨f, mem, eq⟩)
  · rintro ⟨⟨names, printable⟩, below⟩
    have printable' := fun f mem => Field.printable_iff.1 (printable f mem)
    have distinct := nodup_keys_declarations (w := w) names printable
    have stored : Entries.ofPairs (written fs w) = written fs w :=
      Entries.ofPairs_of_nodup (keys_written ▸ distinct)
    obtain ⟨length, each⟩ := forall₂_children_iff.1 below
    rw [stored, Entries.find?_eq_none_iff, keys_written]
    refine ⟨?_, _, length, each, ?_, names_eq heads ▸ names⟩
    · intro tag
      rw [keys_declarations, List.mem_append] at tag
      rcases tag with field | wildcard
      · obtain ⟨f, mem, eq⟩ := List.mem_map.1 field
        exact (printable' f mem).2.1 eq
      · obtain ⟨_, -, eq⟩ := List.mem_map.1 wildcard
        exact absurd eq (by decide)
    · refine (declares_declarations_iff fun f mem => (printable' f mem).2.2).2 ?_
      exact ⟨(forall₂_reads_iff heads).2 fun f mem => (printable' f mem).1, wildcards, rfl⟩

end Schema

end DataShape
