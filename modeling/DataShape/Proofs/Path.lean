import DataShape.Path

/-!
# Reading the text of a path

The text of a path is glued together from positions in brackets and from keys, and the first
key has no point in front of it.  If no key is empty and none holds a point or an opening
bracket, then the text can be read in one way only (`Clean.eq_of_text_eq`), whatever else is in
the keys and whatever stands behind what.

The first key is the only one that needs care.  With a point in front of it, too, each step of a
path starts with a separator and has no other one (`spelling`).  So the last separator tells where
the last step starts and what it is.
-/

namespace DataShape

namespace Path

/-! ## Definitions -/

/-- A point or an opening bracket. -/
def Separator (c : Char) : Prop := c = '.' ∨ c = '['

/-- A key that is not empty and holds no separator. -/
def CleanKey (key : String) : Prop := key ≠ "" ∧ ∀ c ∈ key.toList, ¬ Separator c

/-- A path from the root of a value that stands alone, with clean keys. -/
def Clean : Path → Prop
  | .base text => text = ""
  | .index parent _ => parent.Clean
  | .key parent name => parent.Clean ∧ CleanKey name

/-- The text of a path with a point before every key. -/
def spelling : Path → List Char
  | .base text => text.toList
  | .index parent i => parent.spelling ++ '[' :: ((toString i).toList ++ [']'])
  | .key parent name => parent.spelling ++ '.' :: name.toList

/-- Put a point in front of a text that starts with a key. -/
def pointed : List Char → List Char
  | [] => []
  | '[' :: cs => '[' :: cs
  | cs => '.' :: cs

variable {p q : Path} {key : String} {i : Nat} {as bs cs xs ys : List Char} {a b : Char}

instance (c : Char) : Decidable (Separator c) := inferInstanceAs (Decidable (_ ∨ _))

instance (key : String) : Decidable (CleanKey key) :=
  @instDecidableAnd _ _ inferInstance (List.decidableBAll (fun c => ¬ Separator c) key.toList)

/-! ## Points before keys -/

theorem pointed_of_ne (first : a ≠ '[') : pointed (a :: cs) = '.' :: a :: cs := by
  unfold pointed
  split
  · next eq => cases eq
  · next eq =>
      cases eq
      exact absurd rfl first
  · rfl

theorem pointed_append (nonempty : cs ≠ []) : pointed (cs ++ xs) = pointed cs ++ xs := by
  cases cs with
  | nil => exact absurd rfl nonempty
  | cons a cs =>
      by_cases first : a = '['
      · subst first
        rfl
      · rw [List.cons_append, pointed_of_ne first, pointed_of_ne first]
        rfl

theorem pointed_append_bracket : pointed (cs ++ '[' :: xs) = pointed cs ++ '[' :: xs := by
  by_cases empty : cs = []
  · subst empty
    rfl
  · exact pointed_append empty

/-- A clean key gets a point. -/
theorem CleanKey.pointed_eq (clean : CleanKey key) : pointed key.toList = '.' :: key.toList := by
  obtain ⟨nonempty, clean⟩ := clean
  cases chars : key.toList with
  | nil => exact absurd (String.toList_eq_nil_iff.1 chars) nonempty
  | cons a cs =>
      rw [chars] at clean
      exact pointed_of_ne fun first => clean a (by simp) (.inr first)

/-- The text of a clean path tells how the path is spelled. -/
theorem Clean.spelling_eq (clean : p.Clean) : p.spelling = pointed p.text.toList := by
  induction p with
  | base text =>
      obtain rfl : text = "" := clean
      rfl
  | index parent i ih =>
      rw [spelling, ih clean, ← pointed_append_bracket]
      simp [text]
  | key parent name ih =>
      obtain ⟨clean, cleanKey⟩ := clean
      rw [spelling, ih clean, text]
      by_cases first : parent.text = ""
      · rw [if_pos first, first, cleanKey.pointed_eq]
        rfl
      · rw [if_neg first, ← pointed_append fun empty => first (String.toList_eq_nil_iff.1 empty)]
        simp

/-! ## The last step -/

/-- A text is split at its last separator in one way. -/
theorem last_separator_unique (split : as ++ a :: xs = bs ++ b :: ys) (separates : Separator a)
    (separates' : Separator b) (last : ∀ c ∈ xs, ¬ Separator c)
    (last' : ∀ c ∈ ys, ¬ Separator c) : as = bs ∧ a = b ∧ xs = ys := by
  rcases List.append_eq_append_iff.1 split with ⟨mid, rfl, rest⟩ | ⟨mid, rfl, rest⟩
  · cases mid with
    | nil =>
        obtain ⟨rfl, rfl⟩ := List.cons.inj rest
        exact ⟨by simp, rfl, rfl⟩
    | cons c mid =>
        obtain ⟨rfl, rfl⟩ := List.cons.inj rest
        exact absurd separates' (last b (by simp))
  · cases mid with
    | nil =>
        obtain ⟨rfl, rfl⟩ := List.cons.inj rest
        exact ⟨by simp, rfl, rfl⟩
    | cons c mid =>
        obtain ⟨rfl, rfl⟩ := List.cons.inj rest
        exact absurd separates (last' a (by simp))

/-- There is no separator behind the opening bracket of a position. -/
theorem not_separator_of_mem_position {c : Char} (mem : c ∈ (toString i).toList ++ [']']) :
    ¬ Separator c := by
  rcases List.mem_append.1 mem with digit | close
  · have digit : c.isDigit = true :=
      Nat.isDigit_of_mem_toDigits (by decide) (Nat.le_refl 10) (by simpa using digit)
    rintro (rfl | rfl) <;> simp [Char.isDigit] at digit
  · obtain rfl := List.mem_singleton.1 close
    decide

theorem eq_of_toString_eq {i j : Nat} (same : toString i = toString j) : i = j := by
  have digits : Nat.toDigits 10 i = Nat.toDigits 10 j := by
    simpa using congrArg String.toList same
  simpa using congrArg (Nat.ofDigitChars 10 · 0) digits

/-- Clean paths that are spelled the same are the same. -/
theorem Clean.eq_of_spelling_eq (clean : p.Clean) (clean' : q.Clean)
    (same : p.spelling = q.spelling) : p = q := by
  have bracket : Separator '[' := .inr rfl
  have point : Separator '.' := .inl rfl
  -- The last separator is that of the last step, and a point is no bracket.
  induction p generalizing q with
  | base text =>
      obtain rfl : text = "" := clean
      cases q with
      | base text' =>
          obtain rfl : text' = "" := clean'
          rfl
      | index | key => simp [spelling] at same
  | index parent i ih =>
      cases q with
      | base text' =>
          obtain rfl : text' = "" := clean'
          simp [spelling] at same
      | index parent' j =>
          obtain ⟨front, -, position⟩ := last_separator_unique same bracket bracket
            (fun _ => not_separator_of_mem_position) fun _ => not_separator_of_mem_position
          have numeral : toString i = toString j :=
            String.toList_injective (List.append_cancel_right position)
          rw [ih (q := parent') clean clean' front, eq_of_toString_eq numeral]
      | key parent' name' =>
          obtain ⟨-, impossible, -⟩ := last_separator_unique same bracket point
            (fun _ => not_separator_of_mem_position) clean'.2.2
          cases impossible
  | key parent name ih =>
      cases q with
      | base text' =>
          obtain rfl : text' = "" := clean'
          simp [spelling] at same
      | index parent' j =>
          obtain ⟨-, impossible, -⟩ := last_separator_unique same point bracket clean.2.2
            fun _ => not_separator_of_mem_position
          cases impossible
      | key parent' name' =>
          obtain ⟨front, -, letters⟩ :=
            last_separator_unique same point point clean.2.2 clean'.2.2
          rw [ih clean.1 clean'.1 front, String.toList_injective letters]

/-- Clean paths with the same text are the same. -/
theorem Clean.eq_of_text_eq (clean : p.Clean) (clean' : q.Clean) (same : p.text = q.text) :
    p = q :=
  clean.eq_of_spelling_eq clean' (by rw [clean.spelling_eq, clean'.spelling_eq, same])

/-- A key with a point can be read as two keys. -/
example : (root.key "a.b").text = ((root.key "a").key "b").text := by decide +kernel

end Path

end DataShape
