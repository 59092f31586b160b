import DataShape.Proofs.Text.Lines
import Mathlib.Order.Bounds.Defs

/-!
# The margin of an indented text

`HasLines` says where the lines of a text end, and `lines` finds them (`lines_eq_iff`).  Indenting
puts line feeds where these ends were, and the result is cut into lines once more.  This may take a
carriage return off a line, but every line that holds text is there again and starts with the new
spaces and those it had (`indents_indent`).

None of them is unindented any more, while `margin` leaves out the unindented lines of the text
itself.  So the margin of an indented text is found among all lines that hold text
(`margin_indent`).
-/

namespace DataShape.Text

variable {line rest cs : List Char} {ls : List (List Char)} {n k : Nat}

/-! ## Where lines end -/

/-- The lines of a text, without their ends. -/
inductive HasLines : (cs : List Char) → (ls : List (List Char)) → Prop
  /-- An empty text has no line. -/
  | none : HasLines [] []
  /-- The end of the text ends a line that is not empty. -/
  | last {line : List Char} : '\n' ∉ line → line ≠ [] → HasLines line [line]
  /-- A line feed ends a line. -/
  | feed {line rest : List Char} {ls : List (List Char)} :
      '\n' ∉ line → '\r' ∉ line.getLast? → HasLines rest ls →
      HasLines (line ++ '\n' :: rest) (line :: ls)
  /-- A carriage return directly before a line feed belongs to the end of the line. -/
  | carriage {line rest : List Char} {ls : List (List Char)} :
      '\n' ∉ line → HasLines rest ls → HasLines (line ++ '\r' :: '\n' :: rest) (line :: ls)

theorem lines_of_hasLines (has : HasLines cs ls) : lines cs = ls := by
  induction has with
  | none => rfl
  | last free nonempty => exact lines_of_free free nonempty
  | feed free last _ ih =>
      rw [lines_append_newline free, withoutReturn_of_not_mem_getLast? last, ih]
  | @carriage line rest _ free _ ih =>
      have longer : '\n' ∉ line ++ ['\r'] := by simp [free]
      have split : line ++ '\r' :: '\n' :: rest = (line ++ ['\r']) ++ '\n' :: rest := by simp
      rw [split, lines_append_newline longer, withoutReturn_append_return, ih]

theorem hasLines_lines (cs : List Char) : HasLines cs (lines cs) := by
  induction cs using line_induction with
  | last line free =>
      by_cases empty : line = []
      · rw [empty]
        exact .none
      · rw [lines_of_free free empty]
        exact .last free empty
  | newline line rest free ih =>
      rw [lines_append_newline free]
      -- A carriage return in front of the line feed is what `lines` takes off.
      by_cases last : '\r' ∈ line.getLast?
      · obtain ⟨kept, rfl⟩ := List.getLast?_eq_some_iff.1 last
        rw [withoutReturn_append_return, List.append_assoc, List.singleton_append]
        exact .carriage (fun mem => free (List.mem_append_left _ mem)) ih
      · rw [withoutReturn_of_not_mem_getLast? last]
        exact .feed free last ih

/-- Every text has lines, and has them in one way only. -/
theorem lines_eq_iff : lines cs = ls ↔ HasLines cs ls :=
  ⟨fun eq => eq ▸ hasLines_lines cs, lines_of_hasLines⟩

theorem HasLines.free (has : HasLines cs ls) : ∀ line ∈ ls, '\n' ∉ line := by
  induction has with
  | none => simp
  | last free _ => simpa using free
  | feed free _ _ ih => exact List.forall_mem_cons.2 ⟨free, ih⟩
  | carriage free _ ih => exact List.forall_mem_cons.2 ⟨free, ih⟩

/-! ## How deep lines are -/

/-- A line starts with so many spaces and with no more. -/
def Indented (depth : Nat) (line : List Char) : Prop :=
  ∃ text, line = List.replicate depth ' ' ++ text ∧ ' ' ∉ text.head?

theorem indented_iff : Indented n line ↔ leadingSpaces line = n := by
  constructor
  · rintro ⟨text, rfl, stop⟩
    have none : leadingSpaces text = 0 := by
      cases text with
      | nil => rfl
      | cons c text =>
          rw [leadingSpaces, List.takeWhile_cons_of_neg, List.length_nil]
          simpa using stop
    rw [leadingSpaces_append, none, Nat.add_zero]
  · rintro rfl
    refine ⟨line.dropWhile (· == ' '), ?_, fun more => ?_⟩
    · have spaces : line.takeWhile (· == ' ') = List.replicate (leadingSpaces line) ' ' :=
        List.eq_replicate_iff.2 ⟨rfl, fun c mem => by
          simpa using List.all_eq_true.1 List.all_takeWhile c mem⟩
      rw [← spaces, List.takeWhile_append_dropWhile]
    · have stop := List.head?_dropWhile_not (· == ' ') line
      rw [more] at stop
      simp at stop

theorem mem_indents_iff :
    k ∈ indents cs ↔ ∃ line ∈ lines cs, ¬ Blank line ∧ Indented k line := by
  simp only [← filter_lines, List.mem_map, List.mem_filter, hasText_iff, indented_iff, and_assoc]

theorem indents_eq_nil_iff : indents cs = [] ↔ ∀ line ∈ lines cs, Blank line := by
  simp only [← filter_lines, List.map_eq_nil_iff, List.filter_eq_nil_iff, hasText_iff, not_not]

/-- Indenting moves each line that holds text. -/
theorem indents_indent (n : Nat) (t : String) :
    indents (indent n t).toList = (indents t.toList).map (n + ·) := by
  have free : ∀ line ∈ (lines t.toList).map (List.replicate n ' ' ++ ·), '\n' ∉ line := by
    rw [List.forall_mem_map]
    intro line mem
    simp [(hasLines_lines t.toList).free line mem]
  have kept : hasText ∘ (List.replicate n ' ' ++ ·) = hasText :=
    funext (hasText_spaces_append n)
  have moved : leadingSpaces ∘ (List.replicate n ' ' ++ ·) = (n + ·) ∘ leadingSpaces :=
    funext (leadingSpaces_append n)
  rw [toList_indent, indents_unlines free, List.filter_map, kept, List.map_map, moved,
    ← List.map_map, filter_lines]

/-! ## The margin -/

/-- In an indented text no line that holds text is left out. -/
theorem margin_indent_eq_iff {t : String} {m : Nat} (pos : 0 < n) :
    margin (indent n t) = n + m ↔ IsLeast {k | k ∈ indents t.toList} m := by
  rw [margin_eq_iff (Nat.add_pos_left pos m), indents_indent, List.forall_mem_map]
  -- No indentation is zero behind `n` spaces, and the order is that of the text.
  have least : n + m ∈ (indents t.toList).map (n + ·) ↔ m ∈ indents t.toList := by
    simp
  have others (k : Nat) : n + k = 0 ∨ n + m ≤ n + k ↔ m ≤ k := by
    omega
  exact and_congr least (forall₂_congr fun k _ => others k)

/-- The margin of an indented text is the new spaces and the smallest indentation of the lines of
the text that hold any, the unindented ones included and however these lines end.  If no line holds
text there is no margin. -/
theorem margin_indent (t : String) (pos : 0 < n) :
    (∀ ls, HasLines t.toList ls ↔ ls = lines t.toList) ∧
    ((∃ line ∈ lines t.toList, ¬ Blank line) → ∃ m,
      IsLeast {k | ∃ line ∈ lines t.toList, ¬ Blank line ∧ Indented k line} m ∧
        margin (indent n t) = n + m) ∧
    ((∀ line ∈ lines t.toList, Blank line) → margin (indent n t) = 0) := by
  refine ⟨fun ls => lines_eq_iff.symm.trans eq_comm, ?_, ?_⟩
  · rintro ⟨line, mem, text⟩
    have some : indents t.toList ≠ [] :=
      fun none => text (indents_eq_nil_iff.1 none line mem)
    obtain ⟨m, least⟩ : ∃ m, IsLeast {k | k ∈ indents t.toList} m :=
      ⟨_, (smallest_eq_iff some).1 rfl⟩
    refine ⟨m, ?_, (margin_indent_eq_iff pos).2 least⟩
    simpa only [mem_indents_iff] using least
  · intro blank
    rw [margin_eq_zero_iff, indents_indent, indents_eq_nil_iff.2 blank]
    simp

/-- The first line does not count for the margin of the text, but behind two more spaces it is the
one that decides. -/
theorem margin_indent_first_line :
    0 < 2 ∧ margin "First\r\n   second\r\r\n\u00a0\n\u0085" = 3 ∧
      margin (indent 2 "First\r\n   second\r\r\n\u00a0\n\u0085") = 2 + 0 := by
  refine ⟨by decide, by decide, ?_⟩
  have first : "First".toList ∈ lines "First\r\n   second\r\r\n\u00a0\n\u0085".toList := by decide
  have text : ¬ Blank "First".toList := by decide
  obtain ⟨-, some, -⟩ :=
    margin_indent "First\r\n   second\r\r\n\u00a0\n\u0085" (n := 2) (by decide)
  obtain ⟨m, least, eq⟩ := some ⟨_, first, text⟩
  have none : m ≤ 0 := least.2 ⟨_, first, text, "First".toList, rfl, by decide⟩
  rw [eq, Nat.le_zero.1 none]

example : margin (indent 2 " \t\r\n\u2003\n") = 0 := by decide

end DataShape.Text
