import DataShape.Proofs.Schema.Token
import Mathlib.Data.List.TakeWhile

/-!
# Modifiers in front of a name

`Splits` says which modifiers are taken off a text and what is left as its name.  A possible word
without a blank is taken off if it leads the rest, and from then on it is not possible any more.
So `splitModifiers` takes off what it can (`splitModifiers_eq_iff`), and everything else about it
is read off this relation, one modifier after the other.

A name can be led by a modifier that has already been taken off, so splitting the name again may
well take more off.  The modifiers and the name joined by single spaces, however, are split in the
same way again (`Splits.joined`).

A possible word that holds a blank is never taken off, even if it leads the name
(`not_maximal_of_blank_inside`).
-/

namespace DataShape.Token

open Text (Blank Flush Solid)

/-- The text is the modifiers in order, each with one blank or more behind it, and the name. -/
inductive Spells : (modifiers : List String) → (name cs : List Char) → Prop
  | name {cs : List Char} : Spells [] cs cs
  | modifier {word : String} {modifiers : List String} {name gap rest : List Char} :
      gap ≠ [] → Blank gap → Spells modifiers name rest →
      Spells (word :: modifiers) name (word.toList ++ gap ++ rest)

/-- No word of the list leads anything in the name, the modifiers apart. -/
def Maximal (words modifiers : List String) (name : List Char) : Prop :=
  ∀ word ∈ words, word ∉ modifiers → ∀ rest, ¬ Leads word rest name

/-- The modifiers are taken off a text, and the name is left. -/
inductive Splits : (possible modifiers : List String) → (name cs : List Char) → Prop
  | name {possible : List String} {cs : List Char} : Flush cs →
      (∀ word ∈ possible, Solid word.toList → ∀ rest, ¬ Leads word rest cs) →
      Splits possible [] cs cs
  | modifier {possible modifiers : List String} {word : String} {name cs rest : List Char} :
      word ∈ possible → Solid word.toList → Leads word rest cs →
      Splits (possible.filter (· ≠ word)) modifiers name rest →
      Splits possible (word :: modifiers) name cs

variable {possible modifiers : List String} {word name token : String} {cs rest : List Char}
  {count : Nat}

/-! ## Taking off what can be taken off -/

/-- Every text that starts with no blank is split in some way. -/
theorem exists_splits (possible : List String) {cs : List Char} (flush : Flush cs) :
    ∃ modifiers name, Splits possible modifiers name cs := by
  by_cases leads : ∃ word ∈ possible, Solid word.toList ∧ ∃ rest, Leads word rest cs
  · obtain ⟨word, mem, solid, rest, leads⟩ := leads
    have fewer : (possible.filter (· ≠ word)).length < possible.length :=
      List.length_filter_lt_length_iff_exists.2 ⟨word, mem, by simp⟩
    obtain ⟨modifiers, name, splits⟩ := exists_splits (possible.filter (· ≠ word)) leads.2.1
    exact ⟨word :: modifiers, name, .modifier mem solid leads splits⟩
  · exact ⟨[], cs, .name flush fun word mem solid rest leading =>
      leads ⟨word, mem, solid, rest, leading⟩⟩
termination_by possible.length

/-- As many steps are enough as there are possible words. -/
theorem Splits.takeModifiers_eq {name : List Char} (splits : Splits possible modifiers name cs)
    (enough : possible.length ≤ count) : takeModifiers count possible cs = (modifiers, name) := by
  induction splits generalizing count with
  | name _ none => exact takeModifiers_of_not_leads none
  | @modifier possible _ word _ _ _ mem solid leads _ ih =>
      have fewer : (possible.filter (· ≠ word)).length < possible.length :=
        List.length_filter_lt_length_iff_exists.2 ⟨word, mem, by simp⟩
      obtain ⟨count, rfl⟩ : ∃ n, count = n + 1 := ⟨count - 1, by omega⟩
      rw [takeModifiers_of_leads mem solid leads, ih (by omega)]

/-- A token is split behind its leading blanks. -/
theorem splitModifiers_eq_iff : splitModifiers possible token = (modifiers, name) ↔
    Splits possible modifiers name.toList (Text.trimStart token.toList) := by
  have taken : ∀ {modifiers name},
      Splits possible modifiers name (Text.trimStart token.toList) →
        splitModifiers possible token = (modifiers, String.ofList name) := by
    intro modifiers name splits
    rw [splitModifiers, splits.takeModifiers_eq (Nat.le_refl _)]
  constructor
  · intro split
    obtain ⟨modifiers', name', splits⟩ :=
      exists_splits possible (Text.flush_trimStart token.toList)
    cases (taken splits).symm.trans split
    simpa using splits
  · intro splits
    simpa using taken splits

/-! ## Modifiers and name -/

theorem Splits.spells {name : List Char} (splits : Splits possible modifiers name cs) :
    Spells modifiers name cs := by
  induction splits with
  | name => exact .name
  | modifier _ _ leads _ ih =>
      obtain ⟨-, -, gap, some, blank, rfl⟩ := leads
      exact .modifier some blank ih

theorem Splits.flush {name : List Char} (splits : Splits possible modifiers name cs) :
    Flush name := by
  induction splits with
  | name flush => exact flush
  | modifier _ _ _ _ ih => exact ih

/-- A modifier is never all of a text. -/
theorem Splits.eq_nil_iff {name : List Char} (splits : Splits possible modifiers name cs) :
    name = [] ↔ cs = [] := by
  induction splits with
  | name => rfl
  | modifier _ _ leads _ ih =>
      obtain ⟨nonempty, -, gap, some, -, rfl⟩ := leads
      simp [ih, nonempty, some]

theorem Splits.mem_possible {name : List Char} (splits : Splits possible modifiers name cs)
    (mem : word ∈ modifiers) : word ∈ possible := by
  induction splits with
  | name => cases mem
  | modifier possible _ _ _ ih =>
      rcases List.mem_cons.1 mem with rfl | mem
      · exact possible
      · exact (List.mem_filter.1 (ih mem)).1

/-- What has been taken off is not possible again. -/
theorem Splits.nodup {name : List Char} (splits : Splits possible modifiers name cs) :
    modifiers.Nodup := by
  induction splits with
  | name => exact .nil
  | modifier _ _ _ splits ih =>
      refine List.nodup_cons.2 ⟨fun again => ?_, ih⟩
      simpa using (List.mem_filter.1 (splits.mem_possible again)).2

theorem Splits.maximal {name : List Char} (splits : Splits possible modifiers name cs) :
    Maximal (possible.filter (Solid ·.toList)) modifiers name := by
  induction splits with
  | name _ none =>
      intro word mem _
      obtain ⟨mem, solid⟩ := List.mem_filter.1 mem
      exact none word mem (of_decide_eq_true solid)
  | @modifier _ _ taken _ _ _ _ _ _ _ ih =>
      intro word mem fresh
      obtain ⟨other, fresh⟩ := not_or.1 (mt List.mem_cons.2 fresh)
      obtain ⟨mem, solid⟩ := List.mem_filter.1 mem
      exact ih word (List.mem_filter.2 ⟨List.mem_filter.2 ⟨mem, by simpa using other⟩, solid⟩) fresh

/-! ## Splitting again -/

/-- The modifiers and the name with one space between each two of them. -/
def joined (modifiers : List String) (name : List Char) : List Char :=
  [' '].intercalate (modifiers.map String.toList ++ [name])

theorem joined_cons (word : String) (modifiers : List String) (name : List Char) :
    joined (word :: modifiers) name = word.toList ++ [' '] ++ joined modifiers name := by
  rw [joined, joined, List.map_cons, List.cons_append, List.intercalate_cons_of_ne_nil (by simp)]

/-- A word that leads a text without blanks in front has a character. -/
theorem Leads.word_ne_nil (leads : Leads word rest cs) (flush : Flush cs) : word.toList ≠ [] := by
  intro empty
  obtain ⟨-, -, gap, some, blank, rfl⟩ := leads
  cases gap with
  | nil => exact some rfl
  | cons b gap =>
      rw [empty, List.nil_append, List.cons_append, Text.flush_cons_iff] at flush
      simp [blank b (by simp)] at flush

theorem Splits.flush_joined {name : List Char} (splits : Splits possible modifiers name cs)
    (flush : Flush cs) : Flush (joined modifiers name) := by
  cases splits with
  | name => simpa [joined] using flush
  | modifier _ solid leads _ =>
      rw [joined_cons, List.append_assoc]
      exact solid.flush_append (leads.word_ne_nil flush)

/-- What is joined with single spaces is split in the same way again. -/
theorem Splits.joined {name : List Char} (splits : Splits possible modifiers name cs) :
    Splits possible modifiers name (joined modifiers name) := by
  induction splits with
  | name flush none => simpa [Token.joined] using Splits.name flush none
  | @modifier _ modifiers word name _ rest mem solid leads splits ih =>
      have nonempty : Token.joined modifiers name ≠ [] :=
        mt ih.eq_nil_iff.2 (mt splits.eq_nil_iff.1 leads.1)
      rw [joined_cons]
      exact .modifier mem solid
        (leads_space word nonempty (splits.flush_joined leads.2.1)) ih

/-- Whatever token is split, and whatever words are possible, the token is blanks, each modifier
with one blank or more behind it, and the name.  The modifiers are distinct and possible.  The
name starts with no blank, it is empty only if the token is blank, and no further word without a
blank can be taken off it.  The modifiers and the name are split in the same way again if they
are joined with single spaces. -/
theorem splitModifiers_maximal (possible : List String) (token : String) :
    ∃ modifiers name, splitModifiers possible token = (modifiers, name) ∧
    (∃ lead cs, Blank lead ∧ token.toList = lead ++ cs ∧ Spells modifiers name.toList cs) ∧
    (modifiers.Nodup ∧ ∀ word ∈ modifiers, word ∈ possible) ∧
    (Flush name.toList ∧ (name = "" ↔ Blank token.toList)) ∧
    Maximal (possible.filter (Solid ·.toList)) modifiers name.toList ∧
    splitModifiers possible (" ".intercalate (modifiers ++ [name])) = (modifiers, name) := by
  obtain ⟨⟨modifiers, name⟩, eq⟩ : ∃ parts, splitModifiers possible token = parts := ⟨_, rfl⟩
  have splits : Splits possible modifiers name.toList (Text.trimStart token.toList) :=
    splitModifiers_eq_iff.1 eq
  obtain ⟨flush, lead, blank, split⟩ :=
    Text.trimStart_eq_iff.1 (Eq.refl (Text.trimStart token.toList))
  refine ⟨modifiers, name, eq, ⟨lead, _, blank, split, splits.spells⟩,
    ⟨splits.nodup, fun _ => splits.mem_possible⟩, ⟨splits.flush, ?_⟩, splits.maximal, ?_⟩
  · rw [← String.toList_eq_nil_iff, splits.eq_nil_iff]
    exact List.dropWhile_eq_nil_iff
  · have text : (" ".intercalate (modifiers ++ [name])).toList = joined modifiers name.toList := by
      simp [joined]
    rw [splitModifiers_eq_iff, text, Text.trimStart_of_flush (splits.flush_joined flush)]
    exact splits.joined

/-- A possible word with a blank in it leads the name, and is no modifier. -/
theorem not_maximal_of_blank_inside :
    ¬ Maximal ["a b"] (splitModifiers ["a b"] "a b c").1
      (splitModifiers ["a b"] "a b c").2.toList := by
  have split : splitModifiers ["a b"] "a b c" = ([], "a b c") := by decide +kernel
  rw [split]
  intro maximal
  exact maximal "a b" (by simp) (by simp) ['c']
    (leads_space "a b" (by simp) (Text.flush_cons_iff.2 (by decide)))

end DataShape.Token
