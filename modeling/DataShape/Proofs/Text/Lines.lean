import DataShape.Proofs.Text.Blank
import DataShape.Text.Lines
import Mathlib.Order.Nat

/-!
# Lines and their indentation

A text is cut at its line feeds in one way (`List.splitOn`), and by induction on that it is a last
line without a line feed, or such a line, a line feed and a text.  Its `lines` are these pieces, but
for a carriage return at the end of a piece that a line feed ends and for an empty last piece
(`lines_append_newline`, `lines_of_free`).  Neither matters to the indentation of what holds text,
so `margin` can be read off the pieces (`filter_lines`, `margin_eq_iff`).

A text without carriage returns whose last line is not empty is cut into its lines and joined
again without any change (`lines_unlines`).
-/

namespace DataShape.Text

variable {line rest cs : List Char} {ls : List (List Char)} {n : Nat}

/-! ## One line after the other -/

/-- A text is one line, or a line and a text behind a line feed. -/
theorem line_induction {motive : List Char → Prop} (last : ∀ line, '\n' ∉ line → motive line)
    (newline : ∀ line rest, '\n' ∉ line → motive rest → motive (line ++ '\n' :: rest))
    (cs : List Char) : motive cs := by
  suffices started : ∀ line, '\n' ∉ line → motive (line ++ cs) from started [] (by simp)
  induction cs with
  | nil => exact fun line free => by simpa using last line free
  | cons c cs ih =>
      intro line free
      by_cases feed : c = '\n'
      · subst feed
        exact newline line cs free (ih [] (by simp))
      · have more : '\n' ∉ line ++ [c] := by simp [free, Ne.symm feed]
        simpa using ih (line ++ [c]) more

/-- A line without a carriage return at its end. -/
def withoutReturn : List Char → List Char
  | [] => []
  | ['\r'] => []
  | c :: cs => c :: withoutReturn cs

theorem withoutReturn_cons {c : Char} (more : c = '\r' → rest ≠ []) :
    withoutReturn (c :: rest) = c :: withoutReturn rest := by
  rw [withoutReturn]
  rintro rfl rfl
  exact more rfl rfl

theorem withoutReturn_cases (line : List Char) :
    line = withoutReturn line ∨ line = withoutReturn line ++ ['\r'] := by
  induction line with
  | nil => exact .inl rfl
  | cons c line ih =>
      by_cases ending : c = '\r' ∧ line = []
      · obtain ⟨rfl, rfl⟩ := ending
        exact .inr rfl
      · rw [withoutReturn_cons fun carriage none => ending ⟨carriage, none⟩]
        exact ih.imp (congrArg (c :: ·)) (congrArg (c :: ·))

/-- Only one carriage return belongs to the end of a line. -/
theorem withoutReturn_append_return (line : List Char) : withoutReturn (line ++ ['\r']) = line := by
  induction line with
  | nil => rfl
  | cons c line ih => rw [List.cons_append, withoutReturn_cons (by simp), ih]

theorem withoutReturn_of_not_mem_getLast? (last : '\r' ∉ line.getLast?) :
    withoutReturn line = line := by
  rcases withoutReturn_cases line with eq | eq
  · exact eq.symm
  · rw [eq, List.getLast?_concat] at last
    exact absurd rfl last

theorem withoutReturn_of_not_mem (free : '\r' ∉ line) : withoutReturn line = line :=
  withoutReturn_of_not_mem_getLast? fun last => free (List.mem_of_getLast? last)

/-! ## Lines -/

theorem lines_cons {c : Char} (feed : c ≠ '\n') (carriage : c = '\r' → rest.head? ≠ some '\n') :
    lines (c :: rest) = consLine c (lines rest) := by
  rw [lines]
  · exact feed
  · rintro tail rfl rfl
    exact carriage rfl rfl

/-- A line feed ends a line, together with a carriage return before it. -/
theorem lines_append_newline (free : '\n' ∉ line) (rest : List Char) :
    lines (line ++ '\n' :: rest) = withoutReturn line :: lines rest := by
  induction line with
  | nil => rfl
  | cons c line ih =>
      obtain ⟨feed, free⟩ := List.ne_and_not_mem_of_not_mem_cons free
      by_cases ending : c = '\r' ∧ line = []
      · obtain ⟨rfl, rfl⟩ := ending
        rfl
      · have within : c = '\r' → (line ++ '\n' :: rest).head? ≠ some '\n' := by
          intro carriage
          cases line with
          | nil => exact absurd ⟨carriage, rfl⟩ ending
          | cons d line => simpa using Ne.symm (List.ne_of_not_mem_cons free)
        rw [List.cons_append, lines_cons (Ne.symm feed) within, ih free, consLine,
          withoutReturn_cons fun carriage none => ending ⟨carriage, none⟩]

/-- The end of the text ends a line that is not empty. -/
theorem lines_of_free (free : '\n' ∉ line) (nonempty : line ≠ []) : lines line = [line] := by
  induction line with
  | nil => exact absurd rfl nonempty
  | cons c line ih =>
      obtain ⟨feed, free⟩ := List.ne_and_not_mem_of_not_mem_cons free
      have within : c = '\r' → line.head? ≠ some '\n' :=
        fun _ first => free (List.mem_of_mem_head? first)
      rw [lines_cons (Ne.symm feed) within]
      cases line with
      | nil => rfl
      | cons d line => rw [ih free (List.cons_ne_nil d line), consLine]

theorem unlines_cons (nonempty : ls ≠ []) : unlines (line :: ls) = line ++ '\n' :: unlines ls := by
  rw [unlines]
  exact nonempty

theorem unlines_eq_intercalate (ls : List (List Char)) : unlines ls = ['\n'].intercalate ls := by
  induction ls with
  | nil => rfl
  | cons line ls ih =>
      cases ls with
      | nil => simp [unlines]
      | cons next ls =>
          rw [unlines_cons (List.cons_ne_nil next ls), ih, List.intercalate_cons_cons,
            List.append_assoc, List.singleton_append]

/-- Joined lines are cut where they were joined. -/
theorem splitOn_unlines (free : ∀ line ∈ ls, '\n' ∉ line) (nonempty : ls ≠ []) :
    (unlines ls).splitOn '\n' = ls := by
  rw [unlines_eq_intercalate, List.splitOn_intercalate '\n' free nonempty]

/-- Lines come back if there are no carriage returns and the last line is not empty. -/
theorem lines_unlines (free : ∀ line ∈ ls, '\n' ∉ line) (carriage : ∀ line ∈ ls, '\r' ∉ line)
    (last : [] ∉ ls.getLast?) : lines (unlines ls) = ls := by
  induction ls with
  | nil => rfl
  | cons line ls ih =>
      obtain ⟨freeLine, free⟩ := List.forall_mem_cons.1 free
      obtain ⟨carriageLine, carriage⟩ := List.forall_mem_cons.1 carriage
      cases ls with
      | nil => exact lines_of_free freeLine fun (empty : line = []) => last (by rw [empty]; rfl)
      | cons next ls =>
          rw [unlines_cons (List.cons_ne_nil next ls), lines_append_newline freeLine,
            withoutReturn_of_not_mem carriageLine, ih free carriage (by simpa using last)]

theorem toList_indent (n : Nat) (t : String) :
    (indent n t).toList = unlines ((lines t.toList).map (List.replicate n ' ' ++ ·)) :=
  String.toList_ofList

/-- The lines of a text without carriage returns that does not end in a line feed are its
pieces. -/
theorem lines_eq_splitOn (carriage : '\r' ∉ cs) (nonempty : cs ≠ [])
    (last : cs.getLast? ≠ some '\n') : lines cs = cs.splitOn '\n' := by
  induction cs using line_induction with
  | last line free => rw [lines_of_free free nonempty, List.splitOn_eq_singleton free]
  | newline line rest free ih =>
      obtain ⟨within, behind⟩ : '\r' ∉ line ∧ '\r' ∉ rest := by simpa using carriage
      cases rest with
      | nil => simp at last
      | cons c rest =>
          rw [lines_append_newline free, withoutReturn_of_not_mem within,
            ih behind (List.cons_ne_nil c rest) (by simpa using last),
            List.splitOn_append_cons_self_of_not_mem free]

/-- A piece holds no line feed, and nothing that is not in the text. -/
theorem of_mem_splitOn (mem : line ∈ cs.splitOn '\n') : '\n' ∉ line ∧ line ⊆ cs := by
  induction cs using line_induction with
  | last whole free =>
      rw [List.splitOn_eq_singleton free, List.mem_singleton] at mem
      subst mem
      exact ⟨free, fun _ => id⟩
  | newline first rest free ih =>
      rw [List.splitOn_append_cons_self_of_not_mem free] at mem
      rcases List.mem_cons.1 mem with rfl | mem
      · exact ⟨free, List.subset_append_left _ _⟩
      · exact (ih mem).imp_right fun within c mem =>
          List.mem_append_right _ (List.mem_cons_of_mem _ (within mem))

/-! ## Indentation -/

theorem hasText_iff : hasText line = true ↔ ¬ Blank line := by
  have trimmed : trim line = [] ↔ Blank line := by
    rw [trim_eq_iff]
    constructor
    · rintro ⟨-, lead, trail, blank, blank', rfl⟩
      rw [List.append_nil]
      exact List.forall_mem_append.2 ⟨blank, blank'⟩
    · exact fun blank => ⟨⟨flush_nil, flush_nil⟩, line, [], blank, blank_nil, by simp⟩
  rw [← trimmed]
  simp [hasText]

/-- Spaces in front of a line are part of its indentation. -/
theorem leadingSpaces_append (n : Nat) (line : List Char) :
    leadingSpaces (List.replicate n ' ' ++ line) = n + leadingSpaces line := by
  have spaces : ∀ c ∈ List.replicate n ' ', (c == ' ') = true := by simp
  rw [leadingSpaces, List.takeWhile_append_of_pos spaces, List.length_append, List.length_replicate,
    leadingSpaces]

theorem hasText_append (line rest : List Char) :
    hasText (line ++ rest) = (hasText line || hasText rest) := by
  rw [Bool.eq_iff_iff, Bool.or_eq_true, hasText_iff, hasText_iff, hasText_iff, Blank,
    List.forall_mem_append]
  exact not_and_or

theorem hasText_spaces_append (n : Nat) (line : List Char) :
    hasText (List.replicate n ' ' ++ line) = hasText line := by
  have spaces : hasText (List.replicate n ' ') = false := by
    rw [Bool.eq_false_iff, ne_eq, hasText_iff, not_not]
    exact fun c mem => List.eq_of_mem_replicate mem ▸ isBlank_space
  rw [hasText_append, spaces, Bool.false_or]

theorem leadingSpaces_withoutReturn (line : List Char) :
    leadingSpaces (withoutReturn line) = leadingSpaces line := by
  rcases withoutReturn_cases line with eq | eq
  · rw [← eq]
  · generalize withoutReturn line = kept at eq ⊢
    have stop : ['\r'].takeWhile (· == ' ') = [] := rfl
    rw [eq, leadingSpaces, leadingSpaces, List.takeWhile_append, stop, List.append_nil]
    split
    · assumption
    · rfl

theorem hasText_withoutReturn (line : List Char) : hasText (withoutReturn line) = hasText line := by
  rcases withoutReturn_cases line with eq | eq
  · rw [← eq]
  · generalize withoutReturn line = kept at eq ⊢
    have carriage : hasText ['\r'] = false := by decide
    rw [eq, hasText_append, carriage, Bool.or_false]

/-- The indentation of each line that holds text, without a care for how lines end. -/
def indents (cs : List Char) : List Nat := ((cs.splitOn '\n').filter hasText).map leadingSpaces

theorem indents_append_newline (cs rest : List Char) :
    indents (cs ++ '\n' :: rest) = indents cs ++ indents rest := by
  rw [indents, List.splitOn_append_cons_self, List.filter_append, List.map_append, indents, indents]

theorem indents_of_free (free : '\n' ∉ line) :
    indents line = if hasText line then [leadingSpaces line] else [] := by
  rw [indents, List.splitOn_eq_singleton free, List.filter_cons, List.filter_nil]
  split <;> rfl

theorem indents_unlines (free : ∀ line ∈ ls, '\n' ∉ line) :
    indents (unlines ls) = (ls.filter hasText).map leadingSpaces := by
  by_cases nonempty : ls = []
  · rw [nonempty]
    rfl
  · rw [indents, splitOn_unlines free nonempty]

/-- How lines end does not matter to the indentation of those that hold text. -/
theorem filter_lines (cs : List Char) :
    ((lines cs).filter hasText).map leadingSpaces = indents cs := by
  induction cs using line_induction with
  | last line free =>
      rw [indents_of_free free]
      by_cases empty : line = []
      · rw [empty]
        rfl
      · rw [lines_of_free free empty, List.filter_cons, List.filter_nil]
        split <;> rfl
  | newline line rest free ih =>
      rw [indents_append_newline, indents_of_free free, lines_append_newline free, List.filter_cons,
        hasText_withoutReturn, ← ih]
      cases hasText line
      · rfl
      · simp [leadingSpaces_withoutReturn]

/-! ## The margin -/

theorem smallest_eq_iff {ns : List Nat} (nonempty : ns ≠ []) :
    smallest ns = n ↔ n ∈ ns ∧ ∀ k ∈ ns, n ≤ k := by
  rw [← List.min?_eq_some_iff]
  cases ns with
  | nil => exact absurd rfl nonempty
  | cons k ns => rw [List.min?_cons', smallest, Option.some.injEq]

/-- The margin is the smallest indentation that is not zero. -/
theorem margin_eq_iff {t : String} (pos : 0 < n) :
    margin t = n ↔ n ∈ indents t.toList ∧ ∀ k ∈ indents t.toList, k = 0 ∨ n ≤ k := by
  rw [margin, filter_lines]
  by_cases none : (indents t.toList).filter (· != 0) = []
  · have zero : ∀ k ∈ indents t.toList, k = 0 := by simpa using none
    rw [none]
    exact iff_of_false pos.ne fun least => pos.ne' (zero n least.1)
  · rw [smallest_eq_iff none]
    simp only [List.mem_filter, bne_iff_ne, ne_eq, pos.ne', not_false_eq_true, and_true, and_imp]
    exact and_congr_right fun _ => forall₂_congr fun k _ => or_iff_not_imp_left.symm

/-- There is no margin if no line that holds text is indented. -/
theorem margin_eq_zero_iff {t : String} : margin t = 0 ↔ ∀ k ∈ indents t.toList, k = 0 := by
  rw [margin, filter_lines]
  by_cases none : (indents t.toList).filter (· != 0) = []
  · rw [none]
    exact iff_of_true rfl (by simpa using none)
  · rw [smallest_eq_iff none]
    refine iff_of_false (fun least => by simp at least) fun zero => none (by simpa using zero)

end DataShape.Text
