import DataShape.Proofs.Json.Tree
import DataShape.Proofs.Schema.Token
import DataShape.Schema.Parse

/-!
# The grammar of definitions

`Denotes` says which JSON trees are definitions and which schema each of them
stands for.  There is one rule for each shape of a definition, and no rule speaks of
an order of reading or of an error.  Entries of a special type that its tag does not
ask for do not occur in the rules.

Parsing accepts exactly the definitions of the grammar and gives the schema that the
derivation builds (`parse_eq_ok_iff_denotes`).  Each of the functions below `parse`
is first put into a form without the recursion: several definitions are parsed if
each of them is (`parseAll_eq_ok_iff`), the members of an object if their values are
and no name comes twice (`parseFields_eq_ok_iff`), and a special type if what is
found under its keys is.
-/

namespace DataShape

namespace Definition

/-- The fields and the wildcard that keys and schemas declare, in the order of the
keys.  If there were several wildcards, the last one would count. -/
inductive Declares : List String → List Schema → List (Field Schema) → Option Schema → Prop
  | nil : Declares [] [] [] none
  /-- The key of the wildcard is compared as it is, with its blanks. -/
  | wildcard {keys : List String} {schemas : List Schema} {fields : List (Field Schema)}
      {wildcard : Option Schema} {s : Schema} :
      Declares keys schemas fields wildcard →
      Declares (wildcardKey :: keys) (s :: schemas) fields (wildcard.or (some s))
  /-- Every other key stands for a field. -/
  | field {key name : String} {optional : Bool} {keys : List String} {schemas : List Schema}
      {fields : List (Field Schema)} {wildcard : Option Schema} {s : Schema} :
      key ≠ wildcardKey → Token.Reads Token.optionalWord optional name key →
      Declares keys schemas fields wildcard →
      Declares (key :: keys) (s :: schemas) (⟨name, optional, s⟩ :: fields) wildcard

/-- A JSON tree is the definition of a schema. -/
inductive Denotes : Json → Schema → Prop
  /-- Blanks and the name of a kind. -/
  | primitive {token : String} {kind : Kind} {lead : List Char} :
      Text.Blank lead → token.toList = lead ++ kind.name.toList →
      Denotes (.string token) (.primitive ⟨kind, false⟩)
  /-- Blanks, the word `nullable`, one blank or more, and the name of a kind. -/
  | nullable {token : String} {kind : Kind} {lead gap : List Char} :
      Text.Blank lead → gap ≠ [] → Text.Blank gap →
      token.toList = lead ++ (Token.nullableWord.toList ++ gap ++ kind.name.toList) →
      Denotes (.string token) (.primitive ⟨kind, true⟩)
  /-- An array of one definition. -/
  | list {d : Json} {element : Schema} :
      Denotes d element → Denotes (.array [d]) (.list element)
  /-- An array of no or of several definitions. -/
  | tuple {items : List Json} {elements : List Schema} :
      items.length ≠ 1 → items.length = elements.length →
      (∀ x ∈ items.zip elements, Denotes x.1 x.2) → Denotes (.array items) (.tuple elements)
  /-- A tagged object with an array of definitions. -/
  | choice {members : List (String × Json)} {items : List Json} {alternatives : List Schema} :
      Entries.find? tagKey members = some (.string "choice") →
      Entries.find? "choices" members = some (.array items) → items ≠ [] →
      items.length = alternatives.length →
      (∀ x ∈ items.zip alternatives, Denotes x.1 x.2) →
      Denotes (.object members) (.choice alternatives)
  /-- A tagged object with a name and a definition. -/
  | named {members : List (String × Json)} {name : String} {d : Json} {body : Schema} :
      Entries.find? tagKey members = some (.string "named") →
      Entries.find? "name" members = some (.string name) →
      Entries.find? "value" members = some d → Denotes d body →
      Denotes (.object members) (.named name body)
  /-- A tagged object with a name. -/
  | reference {members : List (String × Json)} {name : String} :
      Entries.find? tagKey members = some (.string "reference") →
      Entries.find? "name" members = some (.string name) →
      Denotes (.object members) (.reference name)
  /-- A tagged object with any JSON tree. -/
  | literal {members : List (String × Json)} {json : Json} :
      Entries.find? tagKey members = some (.string "literal") →
      Entries.find? "value" members = some json →
      Denotes (.object members) (.literal (Value.ofJson json))
  /-- An object without a tag, all of whose values are definitions.  No name may come
  twice. -/
  | object {members : List (String × Json)} {schemas : List Schema}
      {fields : List (Field Schema)} {wildcard : Option Schema} :
      Entries.find? tagKey members = none →
      members.length = schemas.length →
      (∀ x ∈ members.zip schemas, Denotes x.1.2 x.2) →
      Declares (Entries.keys members) schemas fields wildcard →
      (fields.map Field.name).Nodup →
      Denotes (.object members) (.object fields wildcard)

/-! ## Declarations -/

namespace Declares

variable {keys : List String} {schemas : List Schema} {fields : List (Field Schema)}
  {wildcard : Option Schema}

/-- There is a key for every field, and one more if there is a wildcard. -/
theorem length_le (declares : Declares keys schemas fields wildcard) :
    fields.length + wildcard.toList.length ≤ keys.length := by
  induction declares with
  | nil => exact Nat.le_refl _
  | @wildcard _ _ _ w s _ ih =>
      have one : (w.or (some s)).toList.length = 1 := by cases w <;> rfl
      rw [one, List.length_cons]
      omega
  | field _ _ _ ih =>
      rw [List.length_cons, List.length_cons]
      omega

theorem isSome_iff (declares : Declares keys schemas fields wildcard) :
    wildcard.isSome = true ↔ wildcardKey ∈ keys := by
  induction declares with
  | nil => simp
  | @wildcard _ _ _ w => cases w <;> simp
  | field other _ _ ih => simp [ih, Ne.symm other]

/-- Every field is read from some key. -/
theorem exists_reads {f : Field Schema} (declares : Declares keys schemas fields wildcard)
    (mem : f ∈ fields) : ∃ key, Token.Reads Token.optionalWord f.optional f.name key := by
  induction declares with
  | nil => cases mem
  | wildcard _ ih => exact ih mem
  | field _ reads _ ih =>
      rcases List.mem_cons.1 mem with rfl | mem
      · exact ⟨_, reads⟩
      · exact ih mem

/-- What is declared is among the schemas. -/
theorem mem_schemas {s : Schema} (declares : Declares keys schemas fields wildcard)
    (mem : s ∈ fields.map Field.schema ++ wildcard.toList) : s ∈ schemas := by
  induction declares with
  | nil => cases mem
  | @wildcard _ _ _ w _ _ ih =>
      -- The wildcard is one that comes later if there is one.
      cases w with
      | none =>
          rcases List.mem_append.1 mem with field | single
          · exact .tail _ (ih (List.mem_append_left _ field))
          · exact List.mem_singleton.1 single ▸ .head _
      | some later => exact .tail _ (ih mem)
  | field _ _ _ ih =>
      rcases List.mem_cons.1 mem with rfl | mem
      · exact .head _
      · exact .tail _ (ih mem)

end Declares

end Definition

open Definition

/-! ## Results that are there -/

section Results

variable {ε α β : Type} {x : Except ε α}

theorem except_bind_eq_ok_iff {f : α → Except ε β} {b : β} :
    (x >>= f) = .ok b ↔ ∃ a, x = .ok a ∧ f a = .ok b := by
  cases x <;> simp [bind, Except.bind]

theorem except_map_eq_ok_iff {f : α → β} {b : β} :
    x.map f = .ok b ↔ ∃ a, x = .ok a ∧ f a = b := by
  cases x <;> simp [Except.map]

end Results

namespace Schema

variable {members : List (String × Json)} {fields more : List (Field Schema)}
  {wildcard : Option Schema} {s : Schema} {ss : List Schema} {d : Json} {ds : List Json}

/-! ## Texts and arrays -/

theorem readPrimitive_eq_ok_iff_denotes {token : String} {p : Primitive} :
    Token.readPrimitive token = .ok p ↔ Denotes (.string token) (.primitive p) := by
  rw [Token.readPrimitive_eq_ok_iff]
  obtain ⟨kind, nullable⟩ := p
  constructor
  · intro reads
    cases reads with
    | plain blank split _ _ => exact .primitive blank split
    | marked blank split leads =>
        obtain ⟨-, -, gap, nonempty, blanks, rfl⟩ := leads
        exact .nullable blank nonempty blanks split
  · intro denotes
    have flush : Text.Flush kind.name.toList := (Token.solid_kind kind).flush
    cases denotes with
    | primitive blank split => exact .plain blank split flush fun _ => Token.not_leads_kind kind
    | nullable blank nonempty blanks split =>
        exact .marked blank split ⟨by cases kind <;> decide, flush, _, nonempty, blanks, rfl⟩

theorem parseAll_cons_eq_ok_iff : parseAll (d :: ds) = .ok ss ↔
    ∃ t, parse d = .ok t ∧ ∃ ts, parseAll ds = .ok ts ∧ t :: ts = ss := by
  rw [parseAll]
  simp only [except_bind_eq_ok_iff, Except.ok.injEq]

/-- Several definitions are parsed if each of them is. -/
theorem parseAll_eq_ok_iff : parseAll ds = .ok ss ↔
    ds.length = ss.length ∧ ∀ x ∈ ds.zip ss, parse x.1 = .ok x.2 := by
  induction ds generalizing ss with
  | nil => cases ss <;> simp [parseAll]
  | cons d ds ih =>
      simp only [parseAll_cons_eq_ok_iff, ih]
      cases ss with
      | nil => simp
      | cons s ss =>
          simp only [List.cons.injEq, List.length_cons, Nat.add_right_cancel_iff,
            List.zip_cons_cons, List.forall_mem_cons]
          constructor
          · rintro ⟨_, first, _, ⟨length, rest⟩, rfl, rfl⟩
            exact ⟨length, first, rest⟩
          · rintro ⟨length, first, rest⟩
            exact ⟨s, first, ss, ⟨length, rest⟩, rfl, rfl⟩

/-- An array with one element is a list and every other array a tuple. -/
theorem ofElements_cases (ss : List Schema) :
    (∃ element, ss = [element] ∧ ofElements ss = .list element) ∨
      (ss.length ≠ 1 ∧ ofElements ss = .tuple ss) := by
  match ss with
  | [] => exact .inr ⟨by simp, rfl⟩
  | [element] => exact .inl ⟨element, rfl, rfl⟩
  | first :: second :: rest => exact .inr ⟨by simp, rfl⟩

/-! ## Members of an object -/

/-- A field is added unless its name is taken. -/
theorem addField_eq_ok_iff {f : Field Schema} :
    addField fields f = .ok more ↔ f.name ∉ fields.map Field.name ∧ fields ++ [f] = more := by
  rw [addField, ← Field.find?_isSome_iff]
  cases Field.find? f.name fields <;> simp

theorem nodup_append_name {f : Field Schema} (distinct : (fields.map Field.name).Nodup)
    (fresh : f.name ∉ fields.map Field.name) : ((fields ++ [f]).map Field.name).Nodup := by
  rw [List.map_append, List.map_singleton]
  exact List.nodup_append.2 ⟨distinct, by simp, fun a mem b single => by
    rintro rfl
    exact fresh (List.mem_singleton.1 single ▸ mem)⟩

/-- The members of an object are parsed if their values are and if all names are
distinct, together with those that were there before. -/
theorem parseFields_eq_ok_iff (distinct : (fields.map Field.name).Nodup) :
    parseFields fields wildcard members = .ok s ↔
      ∃ schemas more declared, members.length = schemas.length ∧
        (∀ x ∈ members.zip schemas, parse x.1.2 = .ok x.2) ∧
        Declares (Entries.keys members) schemas more declared ∧
        ((fields ++ more).map Field.name).Nodup ∧
        s = .object (fields ++ more) (declared.or wildcard) := by
  induction members generalizing fields wildcard with
  | nil =>
      rw [parseFields]
      constructor
      · intro ok
        exact ⟨[], [], none, rfl, by simp, .nil, by simpa using distinct,
          by simp [← Except.ok.inj ok]⟩
      · rintro ⟨_, _, _, -, -, declares, -, rfl⟩
        cases declares
        simp
  | cons member members ih =>
      obtain ⟨key, d⟩ := member
      rw [parseFields, except_bind_eq_ok_iff]
      by_cases any : key = wildcardKey
      · subst any
        simp only [if_pos, ih distinct]
        constructor
        · rintro ⟨t, first, schemas, more, declared, length, rest, declares, names, rfl⟩
          refine ⟨t :: schemas, more, declared.or (some t), by simp [length], ?_,
            .wildcard declares, names, by simp⟩
          exact List.forall_mem_cons.2 ⟨first, rest⟩
        · rintro ⟨_, more, _, length, each, declares, names, rfl⟩
          cases declares with
          | @wildcard _ schemas _ declared t declares =>
              obtain ⟨first, rest⟩ := List.forall_mem_cons.1 each
              exact ⟨t, first, schemas, more, declared, Nat.succ.inj length, rest, declares, names,
                by simp⟩
          | field other => exact absurd rfl other
      · obtain ⟨⟨optional, name⟩, read⟩ : ∃ marked, Token.readKey key = marked := ⟨_, rfl⟩
        simp only [if_neg any, read, except_bind_eq_ok_iff, addField_eq_ok_iff]
        constructor
        · rintro ⟨t, first, _, ⟨fresh, rfl⟩, ok⟩
          obtain ⟨schemas, more, declared, length, rest, declares, names, rfl⟩ :=
            (ih (nodup_append_name distinct fresh)).1 ok
          refine ⟨t :: schemas, ⟨name, optional, t⟩ :: more, declared, by simp [length], ?_,
            .field any (Token.readKey_eq_iff.1 read) declares, by simpa using names, by simp⟩
          exact List.forall_mem_cons.2 ⟨first, rest⟩
        · rintro ⟨_, _, declared, length, each, declares, names, rfl⟩
          cases declares with
          | wildcard => exact absurd rfl any
          | @field _ _ _ _ schemas more _ t _ reads declares =>
              obtain ⟨first, rest⟩ := List.forall_mem_cons.1 each
              cases read.symm.trans (Token.readKey_eq_iff.2 reads)
              have fresh : name ∉ fields.map Field.name := by
                simp only [List.map_append, List.map_cons] at names
                exact fun mem => (List.nodup_append.1 names).2.2 _ mem _ (.head _) rfl
              refine ⟨t, first, _, ⟨fresh, rfl⟩, (ih (nodup_append_name distinct fresh)).2 ?_⟩
              exact ⟨schemas, more, declared, Nat.succ.inj length, rest, declares,
                by simpa using names, by simp⟩

/-! ## Special types -/

theorem textEntry_eq_ok_iff {tag key text : String} :
    textEntry tag key members = .ok text ↔ Entries.find? key members = some (.string text) := by
  rw [textEntry]
  split
  · next found => simp [found]
  · next other => simpa using other text

theorem parseBody_eq_ok_iff :
    parseBody members = .ok s ↔ ∃ d, Entries.find? "value" members = some d ∧ parse d = .ok s := by
  induction members with
  | nil => simp [parseBody]
  | cons member members ih =>
      obtain ⟨key, d⟩ := member
      rw [parseBody, Entries.find?_cons]
      by_cases same : key = "value"
      · simp [same]
      · simp only [if_neg same, ih]

theorem parseChoices_eq_ok_iff :
    parseChoices members = .ok s ↔
      ∃ items ss, Entries.find? "choices" members = some (.array items) ∧ items ≠ [] ∧
        parseAll items = .ok ss ∧ s = .choice ss := by
  induction members with
  | nil => simp [parseChoices]
  | cons member members ih =>
      obtain ⟨key, d⟩ := member
      rw [parseChoices.eq_def, Entries.find?_cons]
      by_cases same : key = "choices"
      · simp only [if_pos same, Option.some.injEq]
        split
        · simp
        · next first more =>
            simp only [except_bind_eq_ok_iff, Json.array.injEq, Except.ok.injEq]
            constructor
            · intro ⟨t, head, ts, tail, eq⟩
              exact ⟨_, _, rfl, by simp, parseAll_cons_eq_ok_iff.2 ⟨t, head, ts, tail, rfl⟩,
                eq.symm⟩
            · rintro ⟨_, _, rfl, -, ok, rfl⟩
              obtain ⟨t, head, ts, tail, rfl⟩ := parseAll_cons_eq_ok_iff.1 ok
              exact ⟨t, head, ts, tail, rfl⟩
        · next empty other =>
            constructor
            · exact fun ok => nomatch ok
            · rintro ⟨items, -, rfl, nonempty, -⟩
              obtain ⟨first, more, rfl⟩ := List.exists_cons_of_ne_nil nonempty
              exact absurd rfl (other first more)
      · simp only [if_neg same, ih]

/-! ## Definitions -/

/-- An array of one definition denotes a list and every other array of definitions a
tuple. -/
theorem denotes_array_iff : Denotes (.array ds) (ofElements ss) ↔
    ds.length = ss.length ∧ ∀ x ∈ ds.zip ss, Denotes x.1 x.2 := by
  rcases ofElements_cases ss with ⟨element, rfl, eq⟩ | ⟨several, eq⟩
  · rw [eq]
    constructor
    · intro denotes
      cases denotes with
      | list element => exact ⟨rfl, by simpa using element⟩
    · rintro ⟨length, each⟩
      obtain ⟨d, rfl⟩ := List.length_eq_one_iff.1 length
      exact .list (each (d, element) (by simp))
  · rw [eq]
    constructor
    · intro denotes
      cases denotes with
      | tuple _ length each => exact ⟨length, each⟩
    · rintro ⟨length, each⟩
      exact .tuple (length ▸ several) length each

/-- What is parsed is a definition. -/
theorem denotes_of_parse (ok : parse d = .ok s) : Denotes d s := by
  induction d generalizing s with
  | null | bool | number => simp [parse] at ok
  | string token =>
      rw [parse, except_map_eq_ok_iff] at ok
      obtain ⟨p, read, rfl⟩ := ok
      exact readPrimitive_eq_ok_iff_denotes.1 read
  | array items ih =>
      rw [parse, except_map_eq_ok_iff] at ok
      obtain ⟨elements, all, rfl⟩ := ok
      obtain ⟨length, each⟩ := parseAll_eq_ok_iff.1 all
      exact denotes_array_iff.2
        ⟨length, fun x mem => ih x.1 (List.of_mem_zip mem).1 (each x mem)⟩
  | object members ih =>
      have below : ∀ {key d t}, Entries.find? key members = some d → parse d = .ok t →
          Denotes d t := fun found ok => ih _ (Entries.mem_of_find? found) ok
      rw [parse] at ok
      split at ok
      · next untagged =>
          obtain ⟨schemas, more, declared, length, each, declares, names, rfl⟩ :=
            (parseFields_eq_ok_iff (by simp)).1 ok
          simp only [List.nil_append, Option.or_none] at names ⊢
          exact .object untagged length
            (fun x mem => ih x.1 (List.of_mem_zip mem).1 (each x mem)) declares names
      · next tag =>
          obtain ⟨items, ss, found, nonempty, all, rfl⟩ := parseChoices_eq_ok_iff.1 ok
          -- The alternatives are two levels down, where the hypothesis speaks of their array.
          have array : parse (.array items) = .ok (ofElements ss) := by rw [parse, all]; rfl
          obtain ⟨length, each⟩ := denotes_array_iff.1 (below found array)
          exact .choice tag found nonempty length each
      · next tag =>
          simp only [except_bind_eq_ok_iff, except_map_eq_ok_iff, textEntry_eq_ok_iff,
            parseBody_eq_ok_iff] at ok
          obtain ⟨name, named, body, ⟨d, found, ok⟩, rfl⟩ := ok
          exact .named tag named found (below found ok)
      · next tag =>
          simp only [except_map_eq_ok_iff, textEntry_eq_ok_iff] at ok
          obtain ⟨name, named, rfl⟩ := ok
          exact .reference tag named
      · next tag =>
          split at ok
          · next json found =>
              obtain rfl := Except.ok.inj ok
              exact .literal tag found
          · cases ok
      · cases ok
      · cases ok

/-- A definition is parsed as the schema it denotes. -/
theorem parse_of_denotes (denotes : Denotes d s) : parse d = .ok s := by
  induction denotes with
  | primitive blank split =>
      rw [parse, readPrimitive_eq_ok_iff_denotes.2 (.primitive blank split)]
      rfl
  | nullable blank nonempty blanks split =>
      rw [parse, readPrimitive_eq_ok_iff_denotes.2 (.nullable blank nonempty blanks split)]
      rfl
  | @list d element _ ih =>
      have all : parseAll [d] = .ok [element] := parseAll_eq_ok_iff.2 ⟨rfl, by simpa using ih⟩
      rw [parse, all]
      rfl
  | @tuple items elements several length _ ih =>
      rw [parse, parseAll_eq_ok_iff.2 ⟨length, ih⟩]
      rcases ofElements_cases elements with ⟨element, rfl, _⟩ | ⟨_, eq⟩
      · exact absurd length several
      · exact congrArg Except.ok eq
  | choice tag found nonempty length _ ih =>
      rw [parse, tag]
      exact parseChoices_eq_ok_iff.2
        ⟨_, _, found, nonempty, parseAll_eq_ok_iff.2 ⟨length, ih⟩, rfl⟩
  | named tag name found _ ih =>
      simp only [parse, tag, textEntry_eq_ok_iff.2 name, parseBody_eq_ok_iff.2 ⟨_, found, ih⟩]
      rfl
  | reference tag name =>
      simp only [parse, tag, textEntry_eq_ok_iff.2 name]
      rfl
  | literal tag found => simp only [parse, tag, found]
  | object untagged length _ declares names ih =>
      rw [parse, untagged]
      exact (parseFields_eq_ok_iff (by simp)).2
        ⟨_, _, _, length, ih, declares, by simpa using names, by simp⟩

/-- An object is parsed as an object schema if it has no tag, its values are parsed,
its keys declare the fields and the wildcard, and no name comes twice. -/
theorem parse_object_eq_ok_object_iff : parse (.object members) = .ok (.object fields wildcard) ↔
    Entries.find? tagKey members = none ∧ ∃ schemas, members.length = schemas.length ∧
      (∀ x ∈ members.zip schemas, parse x.1.2 = .ok x.2) ∧
      Declares (Entries.keys members) schemas fields wildcard ∧
      (fields.map Field.name).Nodup := by
  constructor
  · intro ok
    cases denotes_of_parse ok with
    | object untagged length each declares names =>
        exact ⟨untagged, _, length, fun x mem => parse_of_denotes (each x mem), declares, names⟩
  · rintro ⟨untagged, schemas, length, each, declares, names⟩
    exact parse_of_denotes
      (.object untagged length (fun x mem => denotes_of_parse (each x mem)) declares names)

/-- Parsing accepts exactly the definitions of the grammar, and it gives the schema
that is read off the derivation. -/
theorem parse_eq_ok_iff_denotes (d : Json) (s : Schema) : parse d = .ok s ↔ Denotes d s :=
  ⟨denotes_of_parse, parse_of_denotes⟩

end Schema

end DataShape
