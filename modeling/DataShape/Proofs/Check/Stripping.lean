import DataShape.Proofs.Check.Conversion
import DataShape.Proofs.Check.Unfolding
import DataShape.Proofs.Walk.Stripping

/-!
# Named types in raw walks

The names need not be taken out of a schema before a walk.  The validator then finds
failures at the same places as with the stripped schema (`extendsTo_failurePaths`), so
it finds the same values right.

The coercer looks for a conversion only below alternatives that lead to a primitive or
to a choice, and it does not look into named types there.  So it coerces as with the
stripped schema if no alternative that is a named type would offer a conversion
(`extendsTo_coerceWithin`).  If one would, the conversion is lost
(`namedAlternative_not_converted`).
-/

namespace DataShape

open Schema (Part Head)

variable {table : Table} {s t : Schema} {v : Value} {limit limit' : Nat}

/-! ## Failures at a node -/

/-- The paths of failures are the same, whatever is wrong there. -/
def SamePaths (failures failures' : List Failure) : Prop :=
  failures.map Failure.path = failures'.map Failure.path

theorem extendsTo_record (path : Path) {found found' : List Mismatch}
    (length : found.length = found'.length) :
    Run.ExtendsTo SamePaths (do record path found; return Visit.keep)
      (do record path found'; return Visit.keep) := by
  refine (Run.extendsTo_update fun failures failures' same => ?_).bind fun _ =>
    Run.extendsTo_pure _
  simp only [SamePaths, List.map_append, List.map_map] at same ⊢
  simp [same, Function.comp_def, List.map_const', length]

/-- A value differs in the same way from a node and from the stripped node. -/
theorem mismatches_strip (other : ∀ name body, t ≠ .named name body) (v : Value) :
    mismatches t.strip v = mismatches t v := by
  cases t with
  | named name body => exact absurd rfl (other name body)
  | tuple elements =>
      cases v <;> simp [Schema.strip, Schema.stripAll_eq_map, mismatches]
  | object fields wildcard =>
      obtain ⟨heads, both⟩ := Schema.head_strip other
      cases v with
      | dict entries =>
          simp only [Schema.strip, mismatches, ← missingProperties_heads heads,
            ← unexpectedProperties_heads heads both]
      | _ => rfl
  | list element => cases v <;> rfl
  | choice alternatives => cases v <;> rfl
  | _ => rfl

/-! ## The validator -/

variable {judge judge' : Schema → Value → Report Bool}

theorem extendsTo_anyMet {alternatives : List Schema}
    (judges : ∀ s v, (judge s v).ExtendsTo (judge' s.strip v)) :
    (anyMet judge v alternatives).ExtendsTo (anyMet judge' v (Schema.stripAll alternatives)) := by
  induction alternatives with
  | nil => exact .refl _
  | cons s rest ih =>
      refine (judges s v).bind fun met _ => ?_
      cases met with
      | true => exact .refl _
      | false => exact ih

/-- Validators do the same at a node and at the stripped node if their judges do. -/
theorem visitAlike_validator (judges : ∀ s v, (judge s v).ExtendsTo (judge' s.strip v)) :
    VisitAlike SamePaths (fun _ => True) (validator judge) (validator judge') := by
  intro ⟨path, schema, v, options⟩ declared
  cases schema with
  | none => exact Run.extendsTo_pure _
  | some t =>
      obtain ⟨other, -⟩ := declared t rfl
      have same : (mismatches t v).length = (mismatches t.strip v).length := by
        rw [mismatches_strip other]
      cases t with
      | named name body => exact absurd rfl (other name body)
      | choice alternatives =>
          refine (Run.extendsTo_ofReport (extendsTo_anyMet judges)).bind fun met => ?_
          cases met with
          | true => exact Run.extendsTo_pure _
          | false => exact extendsTo_record path rfl
      | _ => exact extendsTo_record path same

/-- A walk for an alternative answers as the walk for the stripped alternative. -/
theorem extendsTo_satisfies (bodies : table.Unnamed) (le : limit ≤ limit') (s : Schema)
    (v : Value) : (satisfies table limit s v).ExtendsTo (satisfies table limit' s.strip v) := by
  induction limit generalizing limit' s v with
  | zero => exact .inl rfl
  | succ limit ih =>
      obtain ⟨limit', rfl⟩ := Nat.exists_eq_add_one_of_ne_zero (Nat.ne_zero_of_lt le)
      have judges := ih (Nat.le_of_succ_le_succ le)
      have visits := visitAlike_validator judges
      have walks := extendsTo_walk (s := s) (v := v) bodies (fun _ _ => trivial) visits le
        fun _ _ => trivial
      refine walks.start (fun w failures failures' same => ?_) rfl
      simpa only [List.isEmpty_map] using congrArg List.isEmpty same

/-- The paths of the failures that a walk of a schema finds. -/
def failurePaths (table : Table) (limit : Nat) (s : Schema) (v : Value) : Report (List Path) :=
  (fun (_, failures) => failures.map Failure.path) <$>
    (collectFailures table limit s v).start []

/-- A walk of the stripped schema finds failures at the same paths. -/
theorem extendsTo_failurePaths (bodies : table.Unnamed) (le : limit ≤ limit') (s : Schema)
    (v : Value) :
    (failurePaths table limit s v).ExtendsTo (failurePaths table limit' s.strip v) := by
  have visits := visitAlike_validator (extendsTo_satisfies bodies le)
  have walks := extendsTo_walk (s := s) (v := v) bodies (fun _ _ => trivial) visits le
    fun _ _ => trivial
  refine walks.start (fun w failures failures' same => ?_) rfl
  exact same

/-- A walk of a stripped schema finds the same failures with a larger limit. -/
theorem extendsTo_failurePaths_self (bodies : table.Unnamed) (unnamed : s.Unnamed)
    (le : limit ≤ limit') (v : Value) :
    (failurePaths table limit s v).ExtendsTo (failurePaths table limit' s v) := by
  have extension := extendsTo_failurePaths bodies le s v
  rwa [unnamed.strip_eq] at extension

/-! ## The coercer -/

/-- A conversion is looked for at primitives and at choices. -/
def Schema.convertible : Schema → Bool
  | .primitive _ | .choice _ => true
  | _ => false

/-- No alternative of the choice, if it is one, is a named type that leads to something
that is looked into for a conversion. -/
def Table.NamesApart (table : Table) (s : Schema) : Prop :=
  ∀ alternatives, s = .choice alternatives → ∀ name body, .named name body ∈ alternatives →
    ∀ t, table.resolve body.strip = .ok t → t.convertible = false

theorem namesApart_of_unnamed (h : s.Unnamed) : table.NamesApart s := by
  rintro alternatives rfl name body mem
  exact absurd (Part.of_mem mem) (h name body)

theorem namesApart_of_named (name : String) (body : Schema) :
    table.NamesApart (.named name body) := by
  intro alternatives eq
  cases eq

theorem throughout_namesApart (h : s.Unnamed) : s.Throughout table.NamesApart :=
  .of_unnamed (fun _ => namesApart_of_unnamed) h

/-- An alternative that was judged not to be met leads somewhere, also once it is stripped. -/
theorem exists_resolve_of_satisfies (bodies : table.Unnamed) {b : Bool}
    (judged : (satisfies table limit s v).result = .ok b) :
    ∃ t, table.resolve s.strip = .ok t := by
  have ended : (satisfies table limit s v).result ≠ .error .limit := by simp [judged]
  have same := (extendsTo_satisfies bodies (Nat.le_refl _) s v).eq ended
  rw [judged] at same
  cases limit with
  | zero => cases judged
  | succ limit =>
      cases found : table.resolve s.strip with
      | ok t => exact ⟨t, rfl⟩
      | error e =>
          rw [satisfies, walk, walkAt_of_error found] at same
          cases same

theorem judged_of_anyMet {alternatives : List Schema}
    (answered : (anyMet judge v alternatives).result = .ok false) :
    ∀ s ∈ alternatives, (judge s v).result = .ok false := by
  induction alternatives with
  | nil => exact fun s mem => nomatch mem
  | cons s rest ih =>
      rw [anyMet, Report.result_bind_eq_ok_iff] at answered
      obtain ⟨met, judged, answered⟩ := answered
      cases met with
      | true => cases answered
      | false => exact List.forall_mem_cons.2 ⟨judged, ih answered⟩

theorem extendsTo_firstConversion {convert convert' : Schema → Report (Option Value)}
    {alternatives : List Schema}
    (each : ∀ s ∈ alternatives, (convert s).ExtendsTo (convert' s.strip)) :
    (firstConversion convert alternatives).ExtendsTo
      (firstConversion convert' (Schema.stripAll alternatives)) := by
  induction alternatives with
  | nil => exact .refl _
  | cons s rest ih =>
      obtain ⟨head, each⟩ := List.forall_mem_cons.1 each
      refine head.bind fun converted _ => ?_
      cases converted with
      | some w => exact .refl _
      | none => exact ih each

variable {nested nested' : List Schema → Report (Option Value)}

theorem offer_result_of_not_convertible (found : table.resolve s = .ok t)
    (h : t.convertible = false) : (offer table nested v s).result = .ok none := by
  rw [offer_result found]
  cases t with
  | primitive | choice => cases h
  | _ => rfl

/-- An alternative other than a named type offers what the stripped alternative offers. -/
theorem extendsTo_offer (bodies : table.Unnamed) (other : ∀ name body, s ≠ .named name body)
    (below : ∀ alternatives, table.resolve s = .ok (.choice alternatives) →
      (nested alternatives).ExtendsTo (nested' (Schema.stripAll alternatives))) :
    (offer table nested v s).ExtendsTo (offer table nested' v s.strip) := by
  have leads := Table.resolve_strip bodies other
  cases found : table.resolve s with
  | error e =>
      rw [found] at leads
      rw [offer, offer, found, leads]
      exact .inr rfl
  | ok t =>
      rw [found] at leads
      rw [Report.ExtendsTo, offer_result found, offer_result leads]
      cases t with
      | named name body => exact absurd rfl (Table.ne_named_of_resolve bodies other found name body)
      | choice alternatives => exact below alternatives found
      | _ => exact .inr rfl

/-- The conversion at a choice is that at the stripped choice. -/
theorem extendsTo_convertAtChoice (bodies : table.Unnamed) (le : limit ≤ limit')
    {alternatives : List Schema} (apart : (Schema.choice alternatives).Throughout table.NamesApart)
    (v : Value) : (convertAtChoice table limit alternatives v).ExtendsTo
      (convertAtChoice table limit' (Schema.stripAll alternatives) v) := by
  induction limit generalizing limit' alternatives with
  | zero => exact .inl rfl
  | succ limit ih =>
      obtain ⟨limit', rfl⟩ := Nat.exists_eq_add_one_of_ne_zero (Nat.ne_zero_of_lt le)
      have le := Nat.le_of_succ_le_succ le
      rw [convertAtChoice_succ, convertAtChoice_succ]
      refine (extendsTo_anyMet (extendsTo_satisfies bodies le)).bind fun met answered => ?_
      cases met with
      | true => exact .refl _
      | false =>
          refine extendsTo_firstConversion fun s mem => ?_
          rcases s.named_or_other with ⟨name, body, rfl⟩ | other
          · -- The judge skips the named type, but neither the type nor its body offers anything.
            have judged := judged_of_anyMet answered _ mem
            obtain ⟨t, found⟩ := exists_resolve_of_satisfies bodies judged
            have none := apart _ .self alternatives rfl name body mem t found
            exact .inr (offer_result_of_not_convertible found none).symm
          · refine extendsTo_offer bodies other fun nested found => ih le ?_
            exact Table.throughout_of_resolve bodies (fun _ => namesApart_of_unnamed)
              (apart.child mem) found

/-- Coercers do the same at a node and at the stripped node. -/
theorem visitAlike_coercer (bodies : table.Unnamed) (le : limit ≤ limit') :
    VisitAlike Eq table.NamesApart (coercer (convertAtChoice table limit))
      (coercer (convertAtChoice table limit')) := by
  intro ⟨path, schema, v, options⟩ declared
  cases schema with
  | none => exact .refl _
  | some t =>
      obtain ⟨other, apart⟩ := declared t rfl
      cases t with
      | named name body => exact absurd rfl (other name body)
      | choice alternatives =>
          have converted := extendsTo_convertAtChoice bodies le apart v
          exact (Run.extendsTo_ofReport converted).bind fun _ => .refl _
      | _ => exact .refl _

/-- A walk of the stripped schema coerces a value to the same value, unless a named type
hides a conversion. -/
theorem extendsTo_coerceWithin (bodies : table.Unnamed) (le : limit ≤ limit')
    (apart : s.Throughout table.NamesApart) (v : Value) :
    (coerceWithin table limit s v).ExtendsTo (coerceWithin table limit' s.strip v) := by
  have visits := visitAlike_coercer bodies le
  have walks := extendsTo_walk (v := v) bodies (fun _ => namesApart_of_unnamed) visits le apart
  exact walks.start (fun _ _ _ _ => rfl) rfl

/-- A walk of a stripped schema coerces a value in the same way with a larger limit. -/
theorem extendsTo_coerceWithin_self (bodies : table.Unnamed) (unnamed : s.Unnamed)
    (le : limit ≤ limit') (v : Value) :
    (coerceWithin table limit s v).ExtendsTo (coerceWithin table limit' s v) := by
  have extension := extendsTo_coerceWithin bodies le (throughout_namesApart unnamed) v
  rwa [unnamed.strip_eq] at extension

/-! ## Filled tables -/

/-- Named types are skipped by raw walks with a filled table.  If the walk of a schema
ends, then so does that of the stripped schema.  Failures are found at the same paths, and
a value is coerced to the same value unless a named type hides a conversion. -/
theorem named_types_are_skipped (filled : table.Filled) (s : Schema) (v : Value) :
    (∀ found, EndsWith (failurePaths table · s v) found →
      ∀ found', EndsWith (failurePaths table · s.strip v) found' ↔ found' = found) ∧
    (s.Throughout table.NamesApart → ∀ w, EndsWith (coerceWithin table · s v) w →
      ∀ w', EndsWith (coerceWithin table · s.strip v) w' ↔ w' = w) := by
  have bodies := filled.distinct_and_unnamed.2
  constructor
  · intro found ends found'
    exact endsWith_iff (fun _ _ le => extendsTo_failurePaths_self bodies s.unnamed_strip le v)
      (fun _ _ le => extendsTo_failurePaths bodies le s v) ends
  · intro apart w ends w'
    exact endsWith_iff (fun _ _ le => extendsTo_coerceWithin_self bodies s.unnamed_strip le v)
      (fun _ _ le => extendsTo_coerceWithin bodies le apart v) ends

/-- A list of numbers or a text.  The choice has a name, and the list in it has one. -/
def listOrText : Schema := .named "label" (.choice
  [.named "numbers" (.list (.primitive ⟨.int, false⟩)), .primitive ⟨.str, false⟩])

/-- The table after extracting the list or text. -/
def listOrTextTable : Table := (listOrText.extractInto []).2

/-- The name for lists of numbers hides no conversion. -/
theorem listOrText_namesApart : listOrText.Throughout listOrTextTable.NamesApart := by
  have numbers := (Schema.list (.primitive ⟨.int, false⟩)).unnamed_strip
  have text := (Schema.primitive ⟨.str, false⟩).unnamed_strip
  refine .of_children (namesApart_of_named _ _) fun c mem => ?_
  obtain rfl := List.mem_singleton.1 mem
  refine .of_children ?_ fun c mem => ?_
  · intro alternatives eq name body mem t found
    cases eq
    have same : body = .list (.primitive ⟨.int, false⟩) := by simp_all
    rw [same] at found
    cases found
    rfl
  · rcases List.mem_cons.1 mem with rfl | mem
    · refine .of_children (namesApart_of_named _ _) fun c mem => ?_
      obtain rfl := List.mem_singleton.1 mem
      exact throughout_namesApart numbers
    · obtain rfl := List.mem_singleton.1 mem
      exact throughout_namesApart text

/-- Also without the names, an integer is no list or text and is coerced to a text. -/
theorem listOrText_five :
    EndsWith (failurePaths listOrTextTable · listOrText.strip (.int 5)) (.ok [.root]) ∧
      EndsWith (coerceWithin listOrTextTable · listOrText.strip (.int 5)) (.ok (.str "5")) := by
  have filled : listOrTextTable.Filled := .extract listOrText .empty
  obtain ⟨found, coerced⟩ := named_types_are_skipped filled listOrText (.int 5)
  have failed : EndsWith (failurePaths listOrTextTable · listOrText (.int 5)) (.ok [.root]) :=
    ⟨5, rfl⟩
  have text : EndsWith (coerceWithin listOrTextTable · listOrText (.int 5)) (.ok (.str "5")) :=
    ⟨5, rfl⟩
  exact ⟨(found _ failed _).2 rfl, (coerced listOrText_namesApart _ text _).2 rfl⟩

/-- A choice of an integer under a name, and of nothing else. -/
def namedNumber : Schema := .choice [.named "n" (.primitive ⟨.int, false⟩)]

/-- The table after extracting the named integer. -/
def namedNumberTable : Table := (namedNumber.extractInto []).2

/-- An alternative that is a named type converts nothing, and the alternative without its
name converts a numeral.  So the two schemas do not coerce to the same values. -/
theorem namedAlternative_not_converted :
    namedNumberTable.Filled ∧
      EndsWith (coerceWithin namedNumberTable · namedNumber (.str "1")) (.ok (.str "1")) ∧
      EndsWith (coerceWithin namedNumberTable · namedNumber.strip (.str "1")) (.ok (.int 1)) ∧
      ¬ EndsWith (coerceWithin namedNumberTable · namedNumber.strip (.str "1"))
        (.ok (.str "1")) := by
  have filled : namedNumberTable.Filled := .extract namedNumber .empty
  have number : EndsWith (coerceWithin namedNumberTable · namedNumber.strip (.str "1"))
    (.ok (.int 1)) := ⟨5, rfl⟩
  refine ⟨filled, ⟨5, rfl⟩, number, fun text => ?_⟩
  have self : ∀ limit limit', limit ≤ limit' → Report.ExtendsTo _ _ := fun _ _ le =>
    extendsTo_coerceWithin_self filled.distinct_and_unnamed.2 namedNumber.unnamed_strip le (.str "1")
  cases (endsWith_iff self self number).1 text

end DataShape
