import DataShape.Proofs.Text.Blank
import DataShape.Schema.Token

/-!
# What tokens stand for

A word *leads* a name if one blank or more stand between them and the name is more
than blanks.  `Reads` says what a token stands for where one modifier is possible:
blanks in front do not count, a leading modifier marks the name behind it, and no
second modifier is looked for.  Every token reads in exactly one way, and this is
the way in which keys and primitives are read (`readKey_eq_iff`,
`readPrimitive_eq_ok_iff`).

`reads_ofKey_iff` says which names come back from the keys that are written for
them.
-/

namespace DataShape.Token

variable {word name token : String} {cs rest : List Char} {possible : List String}
  {marked : Bool} {count : Nat}

/-- The text is the word, one blank or more, and a name that starts with no blank. -/
def Leads (word : String) (name cs : List Char) : Prop :=
  name ≠ [] ∧ Text.Flush name ∧
    ∃ gap, gap ≠ [] ∧ Text.Blank gap ∧ cs = word.toList ++ gap ++ name

/-- A token stands for a name, which is marked if the word leads it. -/
inductive Reads (word : String) : (marked : Bool) → (name token : String) → Prop
  | plain {name token : String} {lead : List Char} :
      Text.Blank lead → token.toList = lead ++ name.toList → Text.Flush name.toList →
      (∀ rest, ¬ Leads word rest name.toList) → Reads word false name token
  | marked {name token : String} {lead cs : List Char} :
      Text.Blank lead → token.toList = lead ++ cs → Leads word name.toList cs →
      Reads word true name token

/-- A word leads a name behind one space. -/
theorem leads_space (word : String) {name : List Char} (nonempty : name ≠ [])
    (flush : Text.Flush name) : Leads word name (word.toList ++ [' '] ++ name) :=
  ⟨nonempty, flush, [' '], by simp, by simp [Text.Blank, Text.isBlank_space], rfl⟩

/-! ## Taking modifiers off -/

theorem takeModifiers_of_leads (mem : word ∈ possible) (solid : Text.Solid word.toList)
    (leads : Leads word rest cs) :
    takeModifiers (count + 1) possible cs =
      (word :: (takeModifiers count (possible.filter (· ≠ word)) rest).1,
        (takeModifiers count (possible.filter (· ≠ word)) rest).2) := by
  obtain ⟨nonempty, flush, gap, some, blank, rfl⟩ := leads
  obtain ⟨tail, cut, trim⟩ := Text.cut?_append solid blank some rest
  rw [Text.trimStart_of_flush flush] at trim
  simp only [takeModifiers, cut, trim, String.ofList_toList]
  rw [if_pos ⟨mem, nonempty⟩]

/-- Only a word without a blank can be taken off. -/
theorem takeModifiers_of_not_leads
    (none : ∀ word ∈ possible, Text.Solid word.toList → ∀ rest, ¬ Leads word rest cs) :
    takeModifiers count possible cs = ([], cs) := by
  cases count with
  | zero => rfl
  | succ count =>
      rw [takeModifiers]
      cases cut : Text.cut? cs with
      | none => rfl
      | some parts =>
          obtain ⟨first, tail⟩ := parts
          obtain ⟨rest, trimmed⟩ : ∃ rest, Text.trimStart tail = rest := ⟨_, rfl⟩
          simp only [trimmed]
          obtain ⟨solid, b, blank, rfl⟩ := Text.cut?_eq_some_iff.1 cut
          obtain ⟨flush, lead, blanks, rfl⟩ := Text.trimStart_eq_iff.1 trimmed
          refine if_neg fun modifier => none _ modifier.1 (by simpa using solid) rest ?_
          refine ⟨modifier.2, flush, b :: lead, by simp, ?_, by simp⟩
          exact List.forall_mem_cons.2 ⟨blank, blanks⟩

/-- How a token reads is how its modifier is taken off. -/
theorem Reads.splitModifiers_eq (reads : Reads word marked name token)
    (solid : Text.Solid word.toList) (nonempty : word.toList ≠ []) :
    splitModifiers [word] token = (if marked then [word] else [], name) := by
  cases reads with
  | plain blank split flush none =>
      have taken : takeModifiers 1 [word] name.toList = ([], name.toList) :=
        takeModifiers_of_not_leads (by simpa using fun _ => none)
      rw [splitModifiers, split, Text.trimStart_append blank, Text.trimStart_of_flush flush]
      simp [taken]
  | @marked _ _ lead cs blank split leads =>
      have flush : Text.Flush cs := by
        obtain ⟨-, -, gap, -, -, rfl⟩ := leads
        rw [List.append_assoc]
        exact solid.flush_append nonempty
      have taken : takeModifiers 1 [word] cs = ([word], name.toList) :=
        takeModifiers_of_leads (List.mem_singleton_self word) solid leads
      rw [splitModifiers, split, Text.trimStart_append blank, Text.trimStart_of_flush flush]
      simp [taken]

/-- Every token reads in some way. -/
theorem exists_reads (word token : String) : ∃ marked name, Reads word marked name token := by
  obtain ⟨flush, lead, blank, split⟩ :=
    Text.trimStart_eq_iff.1 (Eq.refl (Text.trimStart token.toList))
  by_cases leads : ∃ rest, Leads word rest (Text.trimStart token.toList)
  · obtain ⟨rest, leads⟩ := leads
    exact ⟨true, String.ofList rest, .marked blank split (by simpa using leads)⟩
  · refine ⟨false, String.ofList (Text.trimStart token.toList), .plain blank ?_ ?_ ?_⟩
    · simpa using split
    · simpa using flush
    · simpa using leads

/-! ## Keys -/

theorem solid_optionalWord : Text.Solid optionalWord.toList := by decide

/-- The key of an object reads as a field that is optional if it is marked. -/
theorem readKey_eq_iff {optional : Bool} :
    readKey token = (optional, name) ↔ Reads optionalWord optional name token := by
  have of_reads : ∀ {optional name}, Reads optionalWord optional name token →
      readKey token = (optional, name) := by
    intro optional name reads
    rw [readKey, reads.splitModifiers_eq solid_optionalWord (by decide)]
    cases optional <;> simp
  constructor
  · intro read
    obtain ⟨optional', name', reads⟩ := exists_reads optionalWord token
    cases (of_reads reads).symm.trans read
    exact reads
  · exact of_reads

/-- The names that come back from the keys that are written for them. -/
theorem reads_ofKey_iff {optional : Bool} :
    Reads optionalWord optional name (ofKey optional name) ↔
      Text.Flush name.toList ∧ (optional = true → name ≠ "") ∧
        (optional = false → ∀ rest, ¬ Leads optionalWord rest name.toList) := by
  cases optional with
  | false =>
      simp only [ofKey, Bool.false_eq_true, false_implies, true_and, forall_const, if_false]
      constructor
      · intro reads
        cases reads with
        | plain _ _ flush none => exact ⟨flush, none⟩
      · rintro ⟨flush, none⟩
        exact .plain Text.blank_nil rfl flush none
  | true =>
      simp only [ofKey, Bool.true_eq_false, false_implies, and_true, forall_const, if_true]
      constructor
      · intro reads
        cases reads with
        | marked _ _ leads =>
            obtain ⟨nonempty, flush, -⟩ := leads
            exact ⟨flush, by simpa using nonempty⟩
      · rintro ⟨flush, nonempty⟩
        exact .marked Text.blank_nil (by simp)
          (leads_space optionalWord (by simpa using nonempty) flush)

/-- A name that is read from a key comes back from the key that is written for it. -/
theorem Reads.ofKey {optional : Bool} (reads : Reads optionalWord optional name token) :
    Reads optionalWord optional name (ofKey optional name) := by
  rw [reads_ofKey_iff]
  cases reads with
  | plain _ _ flush none => exact ⟨flush, by simp, fun _ => none⟩
  | marked _ _ leads =>
      obtain ⟨nonempty, flush, -⟩ := leads
      exact ⟨flush, fun _ => by simpa using nonempty, by simp⟩

/-- A key that comes back is a plain word only if it is the name of a field that is not
optional. -/
theorem ofKey_eq_iff {optional : Bool}
    (reads : Reads optionalWord optional name (ofKey optional name))
    (plain : readKey word = (false, word)) :
    ofKey optional name = word ↔ optional = false ∧ name = word := by
  constructor
  · intro eq
    have read := readKey_eq_iff.2 reads
    rw [eq, plain] at read
    cases read
    exact ⟨rfl, rfl⟩
  · rintro ⟨rfl, rfl⟩
    rfl

/-! ## Primitives -/

theorem solid_nullableWord : Text.Solid nullableWord.toList := by decide

theorem solid_kind (kind : Kind) : Text.Solid kind.name.toList := by cases kind <;> decide

/-- The name of a kind is one word, so nothing leads a name in it. -/
theorem not_leads_kind (kind : Kind) : ¬ Leads word rest kind.name.toList := by
  rintro ⟨-, -, gap, some, blank, split⟩
  cases gap with
  | nil => exact some rfl
  | cons b gap =>
      have solid := solid_kind kind b (by simp [split])
      simp [blank b (by simp)] at solid

/-- A text is a primitive if it reads as its kind, marked if it is nullable. -/
theorem readPrimitive_eq_ok_iff {p : Primitive} : readPrimitive token = .ok p ↔
    Reads nullableWord p.nullable p.kind.name token := by
  have read : ∀ {marked name}, Reads nullableWord marked name token →
      (readPrimitive token = .ok p ↔ name = p.kind.name ∧ marked = p.nullable) := by
    intro marked name reads
    have taken : (if marked then [nullableWord] else []).contains nullableWord = marked := by
      cases marked <;> simp
    rw [readPrimitive, reads.splitModifiers_eq solid_nullableWord (by decide)]
    dsimp only
    rw [taken]
    cases known : Kind.ofName? name with
    | none =>
        simp only [reduceCtorEq, false_iff, not_and]
        rintro rfl
        rw [Kind.ofName?_name] at known
        cases known
    | some kind =>
        obtain ⟨kind', nullable⟩ := p
        obtain rfl := Kind.ofName?_eq_some known
        have same : kind.name = kind'.name ↔ kind = kind' := by
          constructor
          · intro eq
            have names := congrArg Kind.ofName? eq
            rw [Kind.ofName?_name, Kind.ofName?_name] at names
            exact Option.some.inj names
          · rintro rfl
            rfl
        simp [same]
  obtain ⟨marked, name, reads⟩ := exists_reads nullableWord token
  constructor
  · intro ok
    obtain ⟨rfl, rfl⟩ := (read reads).1 ok
    exact reads
  · intro reads
    exact (read reads).2 ⟨rfl, rfl⟩

/-- The token of a primitive is read as it. -/
theorem readPrimitive_ofPrimitive (p : Primitive) : readPrimitive (ofPrimitive p) = .ok p := by
  rw [readPrimitive_eq_ok_iff]
  obtain ⟨kind, nullable⟩ := p
  cases nullable with
  | false =>
      exact .plain Text.blank_nil rfl (solid_kind kind).flush fun _ => not_leads_kind kind
  | true =>
      have nonempty : kind.name.toList ≠ [] := by cases kind <;> decide
      exact .marked Text.blank_nil (by simp [ofPrimitive])
        (leads_space nullableWord nonempty (solid_kind kind).flush)

end DataShape.Token
