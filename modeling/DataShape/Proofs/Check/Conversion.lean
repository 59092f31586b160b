import DataShape.Check.Coerce
import DataShape.Proofs.Check.Validity

/-!
# What the coercer replaces

The coercer replaces a value only where the value is wrong, and only by one that
is right there (`Repaired`).  For a primitive this is read off the conversion.  At
a choice it is an induction on the limit, because a nested choice converts for the
choice around it (`of_convertAtChoice`).

The conversion at a choice has a result whenever its limit fits
(`exists_convertAtChoice`), and no two limits convert differently
(`convertAtChoice_unique`).  So the coercer is tame, and coercers with different
limits agree.
-/

namespace DataShape

variable {table : Table} {s t : Schema} {v w : Value} {bound limit : Nat}

/-! ## Conversions of scalars -/

/-- A value is converted if it is a scalar of another kind, and then it is of the
kind. -/
theorem Kind.convert?_eq_some {kind : Kind} (converted : kind.convert? v = some w) :
    kind.accepts v = false ∧ v ≠ .null ∧ kind.accepts w = true := by
  unfold convert? at converted
  cases other : kind.accepts v with
  | true => simp [other] at converted
  | false =>
      rw [other, if_neg Bool.false_ne_true] at converted
      refine ⟨rfl, ?_, ?_⟩
      · rintro rfl
        cases kind <;> simp [toInt?, toFloat?, toText?, toBool?] at converted
      · cases kind with
        | int | float | str | bool =>
            obtain ⟨x, -, rfl⟩ := Option.map_eq_some_iff.1 converted
            rfl

/-- What is of a kind is no larger than any value. -/
theorem Kind.size_le_of_accepts {kind : Kind} (accepts : kind.accepts w = true) (v : Value) :
    w.size ≤ v.size := by
  have one : w.size = 1 := by
    cases kind <;> cases w <;> simp_all [Kind.accepts, Value.size]
  have pos : 1 ≤ v.size := by
    cases v <;> simp [Value.size]
  omega

/-! ## What alternatives offer -/

/-- The conversion that an alternative of a choice offers, where `nested` converts
at the choices inside. -/
def offer (table : Table) (nested : List Schema → Report (Option Value)) (value : Value)
    (alternative : Schema) : Report (Option Value) := do
  match ← Report.ofExcept ((table.resolve alternative).mapError .definition) with
  | .primitive p => return p.kind.convert? value
  | .choice alternatives => nested alternatives
  | _ => return none

theorem convertAtChoice_succ (alternatives : List Schema) :
    convertAtChoice table (limit + 1) alternatives v = (do
      if ← anyMet (satisfies table limit) v alternatives then return none
      firstConversion (offer table (convertAtChoice table limit · v) v) alternatives) := rfl

variable {nested nested' : List Schema → Report (Option Value)}

/-- What an alternative that resolves offers. -/
theorem offer_result (found : table.resolve s = .ok t) :
    (offer table nested v s).result = match t with
      | .primitive p => .ok (p.kind.convert? v)
      | .choice alternatives => (nested alternatives).result
      | _ => .ok none := by
  simp only [offer, found]
  cases t <;> rfl

/-- An alternative that offers something resolves. -/
theorem resolve_of_offer {o : Option Value} (offered : (offer table nested v s).result = .ok o) :
    ∃ t, table.resolve s = .ok t := by
  rw [offer, Report.result_bind_eq_ok_iff] at offered
  obtain ⟨t, found, -⟩ := offered
  cases resolved : table.resolve s with
  | ok u => exact ⟨u, rfl⟩
  | error e =>
      rw [resolved] at found
      change (Except.error (.definition e) : Except Fault Schema) = .ok t at found
      cases found

/-! ## Conversions at a choice -/

/-- A value meets no alternative, and its conversion meets one and is not larger. -/
structure Converts (table : Table) (alternatives : List Schema) (v w : Value) : Prop where
  unmet : ¬ ∃ s ∈ alternatives, table.Meets s v
  met : ∃ s ∈ alternatives, table.Meets s w
  size : w.size ≤ v.size

/-- The first conversion comes from one of the alternatives. -/
theorem of_firstConversion {convert : Schema → Report (Option Value)}
    {alternatives : List Schema}
    (converted : (firstConversion convert alternatives).result = .ok (some w)) :
    ∃ s ∈ alternatives, (convert s).result = .ok (some w) := by
  induction alternatives with
  | nil => cases converted
  | cons s rest ih =>
      rw [firstConversion, Report.result_bind_eq_ok_iff] at converted
      obtain ⟨offer, offered, converted⟩ := converted
      cases offer with
      | some u =>
          cases converted
          exact ⟨s, by simp, offered⟩
      | none =>
          obtain ⟨t, mem, found⟩ := ih converted
          exact ⟨t, by simp [mem], found⟩

/-- What is converted at a choice met no alternative before and meets one after. -/
theorem of_convertAtChoice {alternatives : List Schema}
    (converted : (convertAtChoice table limit alternatives v).result = .ok (some w)) :
    Converts table alternatives v w := by
  induction limit generalizing alternatives with
  | zero => cases converted
  | succ limit ih =>
      rw [convertAtChoice_succ, Report.result_bind_eq_ok_iff] at converted
      obtain ⟨met, judged, converted⟩ := converted
      have decided := anyMet_eq_ok (judges_satisfies table limit) judged
      cases met with
      | true => cases converted
      | false =>
          obtain ⟨s, mem, offered⟩ := of_firstConversion converted
          obtain ⟨t, found⟩ := resolve_of_offer offered
          rw [offer_result found] at offered
          have unmet : ¬ ∃ s ∈ alternatives, table.Meets s v :=
            fun met => Bool.false_ne_true (decided.2 met)
          cases t with
          | primitive p =>
              obtain ⟨-, -, accepts⟩ := Kind.convert?_eq_some (Except.ok.inj offered)
              refine ⟨unmet, ⟨s, mem, ?_⟩, Kind.size_le_of_accepts accepts v⟩
              exact (Table.meets_resolve_iff found).2 (.kind accepts)
          | choice nested =>
              obtain ⟨-, met, size⟩ := ih offered
              refine ⟨unmet, ⟨s, mem, ?_⟩, size⟩
              exact (Table.meets_resolve_iff found).2 (meets_choice_iff.2 met)
          | _ => cases offered

/-! ## Conversions have a result -/

theorem exists_firstConversion {convert : Schema → Report (Option Value)}
    {alternatives : List Schema} (each : ∀ s ∈ alternatives, ∃ o, (convert s).result = .ok o) :
    ∃ o, (firstConversion convert alternatives).result = .ok o := by
  induction alternatives with
  | nil => exact ⟨none, rfl⟩
  | cons s rest ih =>
      obtain ⟨first, offered⟩ := each s (by simp)
      obtain ⟨o, converted⟩ := ih fun s mem => each s (by simp [mem])
      cases first with
      | some u => exact ⟨some u, by simp [firstConversion, offered]⟩
      | none => exact ⟨o, by simp [firstConversion, offered, converted]⟩

/-- With a limit that fits the choice, there is a conversion or there is none. -/
theorem exists_convertAtChoice (bodies : table.AllGrounded bound) {alternatives : List Schema}
    (fits : table.Fits bound limit (.choice alternatives) v) :
    ∃ o, (convertAtChoice table limit alternatives v).result = .ok o := by
  induction limit generalizing alternatives with
  | zero =>
      obtain ⟨_, impossible⟩ := fits.pos
      omega
  | succ limit ih =>
      have inside : ∀ s ∈ alternatives, table.Fits bound limit s v :=
        fun s mem => fits.ahead mem mem
      obtain ⟨met, judged⟩ := exists_anyMet fun s mem => exists_satisfies bodies (inside s mem)
      have offers : ∀ s ∈ alternatives,
          ∃ o, (offer table (convertAtChoice table limit · v) v s).result = .ok o := by
        intro s mem
        obtain ⟨t, found, fits⟩ := (inside s mem).resolve bodies
        rw [offer_result found]
        cases t with
        | choice nested => exact ih fits
        | _ => exact ⟨_, rfl⟩
      obtain ⟨o, converted⟩ := exists_firstConversion offers
      rw [convertAtChoice_succ]
      cases met with
      | true => exact ⟨none, by simp [judged]⟩
      | false => exact ⟨o, by simp [judged, converted]⟩

/-! ## Limits do not matter -/

theorem firstConversion_unique {convert convert' : Schema → Report (Option Value)}
    {alternatives : List Schema} (each : ∀ s a b, (convert s).result = .ok a →
      (convert' s).result = .ok b → a = b) {a b : Option Value}
    (first : (firstConversion convert alternatives).result = .ok a)
    (second : (firstConversion convert' alternatives).result = .ok b) : a = b := by
  induction alternatives with
  | nil =>
      cases first
      cases second
      rfl
  | cons s rest ih =>
      rw [firstConversion, Report.result_bind_eq_ok_iff] at first second
      obtain ⟨o, offered, first⟩ := first
      obtain ⟨o', offered', second⟩ := second
      obtain rfl := each s o o' offered offered'
      cases o with
      | some u =>
          cases first
          cases second
          rfl
      | none => exact ih first second

/-- Two limits with which there is a result give the same conversion. -/
theorem convertAtChoice_unique {limit' : Nat} {alternatives : List Schema} {a b : Option Value}
    (first : (convertAtChoice table limit alternatives v).result = .ok a)
    (second : (convertAtChoice table limit' alternatives v).result = .ok b) : a = b := by
  induction limit generalizing limit' alternatives a b with
  | zero => cases first
  | succ limit ih =>
      cases limit' with
      | zero => cases second
      | succ limit' =>
          rw [convertAtChoice_succ, Report.result_bind_eq_ok_iff] at first second
          obtain ⟨met, judged, first⟩ := first
          obtain ⟨met', judged', second⟩ := second
          have decided := (anyMet_eq_ok (judges_satisfies table limit) judged).trans
            (anyMet_eq_ok (judges_satisfies table limit') judged').symm
          obtain rfl : met = met' := Bool.eq_iff_iff.2 decided
          cases met with
          | true =>
              cases first
              cases second
              rfl
          | false =>
              refine firstConversion_unique (fun s a b offered offered' => ?_) first second
              obtain ⟨t, found⟩ := resolve_of_offer offered
              rw [offer_result found] at offered offered'
              cases t with
              | choice nested => exact ih offered offered'
              | _ =>
                  cases offered
                  cases offered'
                  rfl

/-! ## The coercer at a node -/

/-- The conversion of the value of a node, where there is one. -/
def conversion (convertChoice : List Schema → Value → Report (Option Value)) (node : Node) :
    Report (Option Value) :=
  match node.schema with
  | some (.primitive p) => pure (p.kind.convert? node.value)
  | some (.choice alternatives) => convertChoice alternatives node.value
  | _ => pure none

variable {convertChoice convertChoice' : List Schema → Value → Report (Option Value)}
  {node : Node} {answer : Visit} {st st' : Unit}

theorem eq_some_of_elim {o : Option Value} (h : o.elim Visit.keep .replace = .replace w) :
    o = some w := by
  cases o with
  | none => cases h
  | some u =>
      cases h
      rfl

/-- The coercer replaces a value by its conversion and keeps it if there is none. -/
theorem gives_coercer_iff : (coercer convertChoice node).Gives st answer st' ↔
    ∃ o, (conversion convertChoice node).result = .ok o ∧ o.elim .keep .replace = answer := by
  obtain ⟨path, schema, v, options⟩ := node
  cases schema with
  | none => simp [coercer, conversion]
  | some s =>
      cases s with
      | primitive p => cases h : p.kind.convert? v <;> simp [coercer, conversion, h]
      | choice alternatives =>
          simp only [coercer, conversion, Run.gives_bind_iff, Run.gives_ofReport_iff]
          constructor
          · rintro ⟨o, _, ⟨converted, -⟩, gives⟩
            refine ⟨o, converted, ?_⟩
            cases o <;> simpa using gives
          · rintro ⟨o, converted, rfl⟩
            refine ⟨o, st, ⟨converted, trivial⟩, ?_⟩
            cases o <;> simp
      | _ => simp [coercer, conversion]

/-- The two mismatches that a conversion can repair. -/
def Mismatch.repairable : Mismatch → Bool
  | .typeMismatch _ _ | .noneOfChoices _ _ => true
  | _ => false

/-- A value can take the place of that of a node: nothing is below the node, what
it raises is one repairable mismatch, and with the new value it raises nothing. -/
structure Repaired (table : Table) (node : Node) (w : Value) : Prop where
  leaf : (∃ p, node.schema = some (.primitive p)) ∨ ∃ ss, node.schema = some (.choice ss)
  before : ∃ m : Mismatch, m.repairable = true ∧ raised table node = [⟨node.path, m⟩]
  after : raised table { node with value := w } = []
  size : w.size ≤ node.value.size

/-- The coercer keeps a value or repairs it. -/
theorem of_gives_coercer
    (gives : (coercer (convertAtChoice table limit) node).Gives st answer st') :
    answer = .keep ∨ ∃ w, answer = .replace w ∧ Repaired table node w := by
  obtain ⟨o, converted, rfl⟩ := gives_coercer_iff.1 gives
  cases o with
  | none => exact .inl rfl
  | some w =>
      refine .inr ⟨w, rfl, ?_⟩
      obtain ⟨path, schema, v, options⟩ := node
      cases schema with
      | none => cases converted
      | some s =>
          cases s with
          | primitive p =>
              obtain ⟨other, notNull, accepts⟩ := Kind.convert?_eq_some (Except.ok.inj converted)
              refine ⟨.inl ⟨p, rfl⟩, ⟨.typeMismatch p.kind.name v.kind, rfl, ?_⟩, ?_,
                Kind.size_le_of_accepts accepts v⟩
              · cases v with
                | null => exact absurd rfl notNull
                | _ => simp [raised, mismatches, other]
              · have met : table.Meets (.primitive p) w := .kind accepts
                simp [raised, meets_primitive_iff.1 met]
          | choice alternatives =>
              obtain ⟨unmet, met, size⟩ := of_convertAtChoice converted
              exact ⟨.inr ⟨alternatives, rfl⟩, ⟨_, rfl, raised_of_not_met unmet⟩,
                raised_of_met met, size⟩
          | _ => cases converted

/-- The coercer is tame where the choice has a conversion or has none. -/
theorem tameAt_coercer (each : ∀ alternatives, node.schema = some (.choice alternatives) →
      ∃ o, (convertAtChoice table limit alternatives node.value).result = .ok o) :
    TameAt (coercer (convertAtChoice table limit)) node := by
  intro st
  have converted : ∃ o, (conversion (convertAtChoice table limit) node).result = .ok o := by
    rw [conversion]
    split
    · exact ⟨_, rfl⟩
    · next alternatives declared => exact each alternatives declared
    · exact ⟨_, rfl⟩
  obtain ⟨o, converted⟩ := converted
  have gives : (coercer (convertAtChoice table limit) node).Gives st (o.elim .keep .replace) st :=
    gives_coercer_iff.2 ⟨o, converted, rfl⟩
  refine ⟨_, st, gives, ?_⟩
  rcases of_gives_coercer gives with kept | ⟨w, replaced, repaired⟩
  · rw [kept]
    exact Nat.le_refl _
  · rw [replaced]
    exact repaired.size

/-- Coercers whose conversions at choices agree are coercers that agree. -/
theorem agree_coercer (each : ∀ alternatives v a b, (convertChoice alternatives v).result = .ok a →
      (convertChoice' alternatives v).result = .ok b → a = b) :
    Agree (coercer convertChoice) (coercer convertChoice') := by
  intro node st answer answer' mid mid' gives gives'
  obtain ⟨o, converted, rfl⟩ := gives_coercer_iff.1 gives
  obtain ⟨o', converted', rfl⟩ := gives_coercer_iff.1 gives'
  obtain ⟨path, schema, v, options⟩ := node
  have same : o = o' := by
    cases schema with
    | none => exact Except.ok.inj (converted.symm.trans converted')
    | some s =>
        cases s with
        | choice alternatives => exact each alternatives v o o' converted converted'
        | _ => exact Except.ok.inj (converted.symm.trans converted')
  exact ⟨by rw [same], rfl⟩

end DataShape
