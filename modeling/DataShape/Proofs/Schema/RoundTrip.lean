import DataShape.Proofs.Schema.Printing

/-!
# Writing schemas and reading them again

A schema that is written as a definition and parsed again comes back as an equal
schema exactly if it is printable (`survives_iff_printable`).

What is parsed is printable but for one kind of fields.  A key with blanks in front
of `_type_` or `_any_` is the key of a field of that name, and the key that is
written for this field has no blanks.  A parsed schema comes back as it was exactly
if it has no such field (`parsed_survives_iff`).
-/

namespace DataShape

open Definition

namespace Schema

/-! ## Schemas that come back -/

variable {R : Value → Value → Prop} {s t : Schema}

/-- One step down: a node that comes back as a like one is printable, and its children
come back one by one. -/
theorem printableHere_of_readsBack (head : Head R t s) (back : ReadsBack s t)
    (literal : ∀ v, s = .literal v → R (.ofJson v.toJson) v → v.Finite) :
    s.PrintableHere ∧ List.Forall₂ ReadsBack s.children t.children := by
  cases s with
  | primitive p =>
      obtain rfl := readsBack_primitive_iff.1 back
      exact ⟨trivial, .nil⟩
  | list element =>
      obtain ⟨u, below, rfl⟩ := readsBack_list_iff.1 back
      exact ⟨trivial, .cons below .nil⟩
  | tuple elements =>
      obtain ⟨ts, backs, rfl⟩ := readsBack_tuple_iff.1 back
      rcases ofElements_cases ts with ⟨element, rfl, -⟩ | ⟨several, eq⟩
      · exact head.elim
      · rw [eq]
        exact ⟨fun length => several (backs.length_eq.symm.trans length), backs⟩
  | object fields wildcard =>
      cases t with
      | object => exact (readsBack_object_iff head.1 head.2).1 back
      | _ => exact head.elim
  | choice alternatives =>
      obtain ⟨nonempty, ts, backs, rfl⟩ := readsBack_choice_iff.1 back
      exact ⟨nonempty, backs⟩
  | named name body =>
      obtain ⟨u, below, rfl⟩ := readsBack_named_iff.1 back
      exact ⟨trivial, .cons below .nil⟩
  | reference name =>
      obtain rfl := readsBack_reference_iff.1 back
      exact ⟨trivial, .nil⟩
  | literal v =>
      obtain rfl := readsBack_literal_iff.1 back
      exact ⟨literal v rfl head, .nil⟩

/-- One step up: a printable node comes back as it was if its children do. -/
theorem readsBack_node (here : s.PrintableHere) (below : ∀ c ∈ s.children, ReadsBack c c) :
    ReadsBack s s := by
  have backs : List.Forall₂ ReadsBack s.children s.children := List.forall₂_same.2 below
  cases s with
  | primitive p => exact readsBack_primitive_iff.2 rfl
  | list element => exact readsBack_list_iff.2 ⟨element, below element (by simp [children]), rfl⟩
  | tuple elements =>
      refine readsBack_tuple_iff.2 ⟨elements, backs, ?_⟩
      rcases ofElements_cases elements with ⟨element, rfl, -⟩ | ⟨-, eq⟩
      · exact absurd rfl here
      · exact eq
  | object fields wildcard => exact (readsBack_object_iff rfl rfl).2 ⟨here, backs⟩
  | choice alternatives => exact readsBack_choice_iff.2 ⟨here, alternatives, backs, rfl⟩
  | named name body =>
      exact readsBack_named_iff.2 ⟨body, below body (by simp [children]), rfl⟩
  | reference name => exact readsBack_reference_iff.2 rfl
  | literal v => exact readsBack_literal_iff.2 (congrArg literal (Value.ofJson_toJson here))

/-- A printable schema comes back as it was. -/
theorem Printable.readsBack (printable : s.Printable) : ReadsBack s s := by
  induction s using children_ind with
  | step s ih =>
      obtain ⟨here, below⟩ := printable_iff.1 printable
      exact readsBack_node here fun c mem => ih c mem (below c mem)

/-- A schema that comes back as a like one is printable. -/
theorem printable_of_like (like : Like R t s) (back : ReadsBack s t)
    (literal : ∀ v, Part (.literal v) s → R (.ofJson v.toJson) v → v.Finite) :
    s.Printable := by
  induction s using children_ind generalizing t with
  | step s ih =>
      obtain ⟨head, likes⟩ := like_iff.1 like
      obtain ⟨here, backs⟩ :=
        printableHere_of_readsBack head back fun v eq => literal v (eq ▸ .self)
      refine printable_iff.2 ⟨here, fun c mem => ?_⟩
      obtain ⟨u, like, back⟩ := exists_of_forall₂ likes backs mem
      exact ih c mem like back fun v part => literal v (.child mem part)

/-- A schema comes back as it was exactly if it is printable. -/
theorem readsBack_self_iff : ReadsBack s s ↔ s.Printable := by
  refine ⟨fun back => ?_, Printable.readsBack⟩
  refine printable_of_like (like_self (R := Eq) fun _ _ => rfl) back fun v _ eq => ?_
  exact eq ▸ Value.finite_ofJson v.toJson

end Schema

/-! ## Schemas that were parsed -/

/-- The key of the field is one of the two special keys. -/
def Field.Reserved {α : Type} (f : Field α) : Prop :=
  f.optional = false ∧ (f.name = tagKey ∨ f.name = wildcardKey)

namespace Definition

variable {keys : List String} {schemas : List Schema} {fields : List (Field Schema)}
  {wildcard : Option Schema} {f : Field Schema} {c : Schema} {d : Json} {s : Schema}

/-- A field that is read from a key is printable if its key is not special. -/
theorem printable_of_reads {key : String}
    (reads : Token.Reads Token.optionalWord f.optional f.name key) (free : ¬ f.Reserved) :
    f.Printable := by
  obtain ⟨flush, nonempty, plain⟩ := Token.reads_ofKey_iff.1 reads.ofKey
  refine ⟨flush, nonempty, fun required => ⟨fun eq => ?_, fun eq => ?_, plain required⟩⟩
  · exact free ⟨required, .inl eq⟩
  · exact free ⟨required, .inr eq⟩

/-- The schemas below a schema that is denoted are denoted, too. -/
theorem Denotes.child (denotes : Denotes d s) (mem : c ∈ s.children) : ∃ d, Denotes d c := by
  cases denotes with
  | primitive | nullable | reference | literal => cases mem
  | list below | named _ _ _ below =>
      obtain rfl := List.mem_singleton.1 mem
      exact ⟨_, below⟩
  | tuple _ length each | choice _ _ _ length each =>
      obtain ⟨x, zipped, rfl⟩ := Schema.exists_mem_zip length mem
      exact ⟨x.1, each x zipped⟩
  | object _ length each declares =>
      obtain ⟨x, zipped, rfl⟩ := Schema.exists_mem_zip length (declares.mem_schemas mem)
      exact ⟨x.1.2, each x zipped⟩

theorem Denotes.part {t : Schema} (denotes : Denotes d s) (part : Schema.Part t s) :
    ∃ d, Denotes d t := by
  induction part generalizing d with
  | self => exact ⟨d, denotes⟩
  | child mem _ ih =>
      obtain ⟨d, below⟩ := denotes.child mem
      exact ih below

/-- A node that is denoted is printable if no field is written with a special key. -/
theorem Denotes.printableHere (denotes : Denotes d s)
    (free : ∀ fields wildcard, s = .object fields wildcard → ∀ f ∈ fields, ¬ f.Reserved) :
    s.PrintableHere := by
  cases denotes with
  | primitive | nullable | reference | list | named => trivial
  | tuple several length => exact fun single => several (length.trans single)
  | choice _ _ nonempty length =>
      rintro rfl
      exact nonempty (List.length_eq_zero_iff.1 length)
  | literal => exact Value.finite_ofJson _
  | object _ _ _ declares names =>
      refine ⟨names, fun f mem => ?_⟩
      obtain ⟨key, reads⟩ := declares.exists_reads mem
      exact printable_of_reads reads (free _ _ rfl f mem)

end Definition

/-! ## Which schemas survive -/

namespace Schema

/-- A schema comes back as an equal schema exactly if it is printable.  This is said of
schemas whose literals have distinct keys, since only then does a literal that comes
back as it was equal itself. -/
theorem survives_iff_printable {s : Schema}
    (distinct : ∀ v, Part (.literal v) s → v.Distinct) :
    (∃ t, parse s.toDefinition = .ok t ∧ t.same s = true) ↔ s.Printable := by
  constructor
  · rintro ⟨t, back, same⟩
    exact printable_of_like (same_iff_like.1 same) back fun v part same =>
      (Value.same_ofJson_toJson_iff (distinct v part)).1 same
  · intro printable
    refine ⟨s, printable.readsBack, same_iff_like.2 (like_self fun v part => ?_)⟩
    have finite : v.Finite := printable _ part
    have same := (Value.same_ofJson_toJson_iff (distinct v part)).2 finite
    rwa [Value.ofJson_toJson finite] at same

/-- An optional field with the name of the tag, and a literal for every other key. -/
def optionalTag : Schema :=
  .object [⟨"_type_", true, .tuple []⟩] (some (.literal (.dict [("a", .list [])])))

/-- A field may have the name of the tag if it is optional. -/
theorem optionalTag_survives :
    (∀ v, Part (.literal v) optionalTag → v.Distinct) ∧
      (∃ t, parse optionalTag.toDefinition = .ok t ∧ t.same optionalTag = true) ∧
      optionalTag.Printable := by
  have distinct : ∀ v, Part (.literal v) optionalTag → v.Distinct := by
    intro v part
    obtain ⟨c, mem, part⟩ := (Part.iff.1 part).resolve_left Schema.noConfusion
    rcases List.mem_cons.1 mem with rfl | mem
    · obtain ⟨_, mem, -⟩ := (Part.iff.1 part).resolve_left Schema.noConfusion
      cases mem
    · obtain rfl := List.mem_singleton.1 mem
      rcases Part.iff.1 part with eq | ⟨_, mem, -⟩
      · obtain rfl := Schema.literal.inj eq
        exact Value.distinct_dict_iff.2 ⟨by decide, by simp [Value.distinct_list_iff]⟩
      · cases mem
  have survives : ∃ t, parse optionalTag.toDefinition = .ok t ∧ t.same optionalTag = true :=
    ⟨optionalTag, rfl, by decide⟩
  exact ⟨distinct, survives, (survives_iff_printable distinct).1 survives⟩

/-- A parsed schema comes back as it was exactly if no field is written with a special
key. -/
theorem parsed_survives_iff {d : Json} {s : Schema} (ok : parse d = .ok s) :
    parse s.toDefinition = .ok s ↔
      ∀ fields wildcard, Part (.object fields wildcard) s → ∀ f ∈ fields, ¬ f.Reserved := by
  refine readsBack_self_iff.trans ⟨fun printable fields wildcard part f mem => ?_, fun free => ?_⟩
  · rintro ⟨required, name⟩
    obtain ⟨noTag, noWildcard, -⟩ := ((printable _ part).2 f mem).2.2 required
    exact name.elim noTag noWildcard
  · intro t part
    obtain ⟨d, denotes⟩ := (denotes_of_parse ok).part part
    exact denotes.printableHere fun fields wildcard eq => free fields wildcard (eq ▸ part)

/-- An optional field with the name of the wildcard. -/
def optionalAny : Schema := .object [⟨"_any_", true, .primitive ⟨.int, false⟩⟩] none

/-- A blank in front of a modifier does no harm. -/
theorem optionalAny_survives :
    parse (.object [(" optional _any_", .string "int")]) = .ok optionalAny ∧
      parse optionalAny.toDefinition = .ok optionalAny := by
  have ok : parse (.object [(" optional _any_", .string "int")]) = .ok optionalAny := rfl
  refine ⟨ok, (parsed_survives_iff ok).2 fun fields wildcard part f mem => ?_⟩
  rcases Part.iff.1 part with eq | ⟨c, below, part⟩
  · obtain ⟨rfl, -⟩ := Schema.object.inj eq
    obtain rfl := List.mem_singleton.1 mem
    exact fun reserved => nomatch reserved.1
  · -- Below the object there is only a primitive.
    obtain rfl := List.mem_singleton.1 below
    obtain ⟨_, below, -⟩ := (Part.iff.1 part).resolve_left Schema.noConfusion
    cases below

/-- A field whose key has a blank in front of `_any_` comes back as the wildcard. -/
theorem blank_key_lost :
    ¬ ∀ d s, parse d = .ok s → parse s.toDefinition = .ok s := by
  intro survives
  have ok : parse (.object [(" _any_", .string "int")]) =
      .ok (.object [⟨"_any_", false, .primitive ⟨.int, false⟩⟩] none) := rfl
  have back : parse (toDefinition (.object [⟨"_any_", false, .primitive ⟨.int, false⟩⟩] none)) =
      .ok (.object [] (some (.primitive ⟨.int, false⟩))) := rfl
  cases (survives _ _ ok).symm.trans back

end Schema

end DataShape
