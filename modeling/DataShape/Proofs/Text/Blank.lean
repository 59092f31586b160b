import DataShape.Text.Blank

/-!
# Blanks around words

A text is *blank* if it holds nothing but blanks, *solid* if it holds none, and
*flush* if it does not start with one.  Trimming the start of a text splits it into
a blank and a flush part (`trimStart_eq_iff`), and cutting it splits it into a solid
part, one blank, and the rest (`cut?_eq_some_iff`).  Both splits can be made in one
way only.
-/

namespace DataShape.Text

/-- Every character is a blank. -/
def Blank (cs : List Char) : Prop := ∀ c ∈ cs, isBlank c = true

/-- No character is a blank. -/
def Solid (cs : List Char) : Prop := ∀ c ∈ cs, isBlank c = false

/-- The first character, if there is one, is no blank. -/
def Flush (cs : List Char) : Prop := ∀ c ∈ cs.head?, isBlank c = false

instance (cs : List Char) : Decidable (Blank cs) :=
  List.decidableBAll (fun c => isBlank c = true) cs

instance (cs : List Char) : Decidable (Solid cs) :=
  List.decidableBAll (fun c => isBlank c = false) cs

theorem isBlank_space : isBlank ' ' = true := by decide

variable {lead cs word gap rest tail : List Char} {c : Char}

theorem blank_nil : Blank [] := by simp [Blank]

theorem flush_nil : Flush [] := by simp [Flush]

@[simp] theorem flush_cons_iff : Flush (c :: cs) ↔ isBlank c = false := by simp [Flush]

theorem Solid.flush (solid : Solid cs) : Flush cs :=
  fun c mem => solid c (List.mem_of_mem_head? mem)

/-- A solid text that is not empty makes a text flush. -/
theorem Solid.flush_append (solid : Solid word) (nonempty : word ≠ []) : Flush (word ++ cs) := by
  cases word with
  | nil => exact absurd rfl nonempty
  | cons c word => exact flush_cons_iff.2 (solid c (by simp))

/-! ## Trimming -/

theorem trimStart_append (blank : Blank lead) (cs : List Char) :
    trimStart (lead ++ cs) = trimStart cs :=
  List.dropWhile_append_of_pos blank

theorem trimStart_of_flush (flush : Flush cs) : trimStart cs = cs := by
  cases cs with
  | nil => rfl
  | cons c cs =>
      rw [trimStart_cons, if_neg]
      simp [flush_cons_iff.1 flush]

theorem flush_trimStart (cs : List Char) : Flush (trimStart cs) := by
  induction cs with
  | nil => exact flush_nil
  | cons c cs ih =>
      rw [trimStart_cons]
      split
      · exact ih
      · next solid => exact flush_cons_iff.2 (by simpa using solid)

/-- A text is its leading blanks and the rest, which is flush. -/
theorem trimStart_eq_iff :
    trimStart cs = rest ↔ Flush rest ∧ ∃ lead, Blank lead ∧ cs = lead ++ rest := by
  constructor
  · rintro rfl
    exact ⟨flush_trimStart cs, cs.takeWhile isBlank, List.all_eq_true.1 List.all_takeWhile,
      List.takeWhile_append_dropWhile.symm⟩
  · rintro ⟨flush, lead, blank, rfl⟩
    rw [trimStart_append blank, trimStart_of_flush flush]

theorem blank_reverse_iff : Blank cs.reverse ↔ Blank cs := by simp [Blank]

theorem Flush.of_append (flush : Flush (cs ++ rest)) : Flush cs := by
  cases cs with
  | nil => exact flush_nil
  | cons c cs => exact flush_cons_iff.2 (flush_cons_iff.1 flush)

/-- A text is its blank ends and what is between them, which is flush on both sides. -/
theorem trim_eq_iff : trim cs = rest ↔ (Flush rest ∧ Flush rest.reverse) ∧
    ∃ lead trail, Blank lead ∧ Blank trail ∧ cs = lead ++ rest ++ trail := by
  have trimmed : trim cs = rest ↔ trimStart (trimStart cs).reverse = rest.reverse :=
    List.reverse_eq_iff
  rw [trimmed, trimStart_eq_iff]
  constructor
  · rintro ⟨back, trail, blank', split⟩
    obtain ⟨front, lead, blank, eq⟩ := trimStart_eq_iff.1 (Eq.refl (trimStart cs))
    have inner : trimStart cs = rest ++ trail.reverse := by
      simpa using congrArg List.reverse split
    rw [inner] at front eq
    exact ⟨⟨front.of_append, back⟩, lead, trail.reverse, blank, blank_reverse_iff.2 blank',
      by rw [eq, List.append_assoc]⟩
  · rintro ⟨⟨front, back⟩, lead, trail, blank, blank', rfl⟩
    refine ⟨back, ?_⟩
    rw [List.append_assoc, trimStart_append blank]
    cases rest with
    | nil => exact ⟨[], blank_nil, by simpa [trimStart_nil] using trimStart_append blank' []⟩
    | cons c rest =>
        have flush : Flush (c :: rest ++ trail) := flush_cons_iff.2 (flush_cons_iff.1 front)
        rw [trimStart_of_flush flush]
        exact ⟨trail.reverse, blank_reverse_iff.2 blank', List.reverse_append⟩

/-! ## Cutting -/

/-- A cut is made at the first blank. -/
theorem cut?_eq_some_iff : cut? cs = some (word, tail) ↔
    Solid word ∧ ∃ b, isBlank b = true ∧ cs = word ++ b :: tail := by
  induction cs generalizing word with
  | nil => simp [cut?]
  | cons c cs ih =>
      rw [cut?]
      by_cases blank : isBlank c = true
      · rw [if_pos blank]
        constructor
        · intro eq
          simp only [Option.some.injEq, Prod.mk.injEq] at eq
          obtain ⟨rfl, rfl⟩ := eq
          exact ⟨by simp [Solid], c, blank, rfl⟩
        · rintro ⟨solid, b, -, eq⟩
          cases word with
          | nil =>
              obtain ⟨-, rfl⟩ := List.cons.inj eq
              rfl
          | cons d word =>
              obtain ⟨rfl, -⟩ := List.cons.inj eq
              simp [solid c (by simp)] at blank
      · rw [if_neg blank, Option.map_eq_some_iff]
        constructor
        · rintro ⟨⟨word', tail'⟩, found, eq⟩
          simp only [Prod.mk.injEq] at eq
          obtain ⟨rfl, rfl⟩ := eq
          obtain ⟨solid, b, isBlank, rfl⟩ := ih.1 found
          exact ⟨List.forall_mem_cons.2 ⟨by simpa using blank, solid⟩, b, isBlank, rfl⟩
        · rintro ⟨solid, b, isBlank, eq⟩
          cases word with
          | nil =>
              obtain ⟨rfl, -⟩ := List.cons.inj eq
              exact absurd isBlank blank
          | cons d word =>
              obtain ⟨rfl, rfl⟩ := List.cons.inj eq
              obtain ⟨-, solid⟩ := List.forall_mem_cons.1 solid
              exact ⟨(word, tail), ih.2 ⟨solid, b, isBlank, rfl⟩, rfl⟩

/-- A text is cut wherever one blank or more follow a solid word. -/
theorem cut?_append (solid : Solid word) (blank : Blank gap) (nonempty : gap ≠ [])
    (rest : List Char) : ∃ tail, cut? (word ++ gap ++ rest) = some (word, tail) ∧
      trimStart tail = trimStart rest := by
  cases gap with
  | nil => exact absurd rfl nonempty
  | cons b gap =>
      obtain ⟨first, blank⟩ := List.forall_mem_cons.1 blank
      exact ⟨gap ++ rest, cut?_eq_some_iff.2 ⟨solid, b, first, by simp⟩,
        trimStart_append blank rest⟩

end DataShape.Text
