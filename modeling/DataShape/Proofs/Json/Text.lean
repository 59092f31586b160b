import DataShape.Json.Writer
import DataShape.Proofs.Decimal.Integer
import DataShape.Proofs.Json.Tree

/-!
# The characters of JSON text

Text without control characters is *inline*.  Quoting escapes control characters, and numbers have
none, so the compact text of a tree is inline (`inline_compact`).

The text on many lines has line feeds between its lines and no other control character
(`wrapped_prettyAt`).  It never ends in one, since a bracket or a scalar comes last
(`closed_prettyAt`).
-/

namespace DataShape

namespace Text

/-- No character is a control character below U+0020. -/
def Inline (cs : List Char) : Prop := ∀ c ∈ cs, 0x20 ≤ c.toNat

/-- No character is a control character below U+0020, but for line feeds. -/
def Wrapped (cs : List Char) : Prop := ∀ c ∈ cs, 0x20 ≤ c.toNat ∨ c = '\n'

/-- The last character is there, and it is no control character. -/
def Closed (cs : List Char) : Prop := ∃ c ∈ cs.getLast?, 0x20 ≤ c.toNat

instance (cs : List Char) : Decidable (Inline cs) :=
  List.decidableBAll (fun c : Char => 0x20 ≤ c.toNat) cs

instance (cs : List Char) : Decidable (Wrapped cs) :=
  List.decidableBAll (fun c : Char => 0x20 ≤ c.toNat ∨ c = '\n') cs

variable {cs ds sep : List Char}

theorem Inline.append (inline : Inline cs) (inline' : Inline ds) : Inline (cs ++ ds) :=
  List.forall_mem_append.2 ⟨inline, inline'⟩

theorem Inline.cons {c : Char} (first : 0x20 ≤ c.toNat) (inline : Inline cs) : Inline (c :: cs) :=
  List.forall_mem_cons.2 ⟨first, inline⟩

theorem inline_replicate {c : Char} (visible : 0x20 ≤ c.toNat) (n : Nat) :
    Inline (List.replicate n c) := by
  intro d mem
  rwa [List.eq_of_mem_replicate mem]

theorem Inline.wrapped (inline : Inline cs) : Wrapped cs := fun c mem => .inl (inline c mem)

theorem Inline.not_mem (inline : Inline cs) {c : Char} (control : c.toNat < 0x20) : c ∉ cs :=
  fun mem => Nat.not_le_of_lt control (inline c mem)

theorem Inline.closed (inline : Inline cs) (nonempty : cs ≠ []) : Closed cs :=
  ⟨_, List.getLast?_eq_some_getLast nonempty, inline _ (List.getLast_mem nonempty)⟩

theorem Wrapped.append (wrapped : Wrapped cs) (wrapped' : Wrapped ds) : Wrapped (cs ++ ds) :=
  List.forall_mem_append.2 ⟨wrapped, wrapped'⟩

theorem Wrapped.carriage_not_mem (wrapped : Wrapped cs) : '\r' ∉ cs := by
  intro mem
  rcases wrapped _ mem with visible | feed
  · exact absurd visible (by decide)
  · exact absurd feed (by decide)

theorem Closed.ne_nil (closed : Closed cs) : cs ≠ [] := by
  rintro rfl
  obtain ⟨c, last, -⟩ := closed
  cases last

theorem Closed.getLast?_ne (closed : Closed cs) : cs.getLast? ≠ some '\n' := by
  obtain ⟨c, last, visible⟩ := closed
  rw [Option.mem_def.1 last]
  rintro ⟨⟩
  exact absurd visible (by decide)

theorem Closed.append (closed : Closed ds) (cs : List Char) : Closed (cs ++ ds) := by
  obtain ⟨c, last, visible⟩ := closed
  exact ⟨c, by rw [List.getLast?_append, Option.mem_def.1 last]; rfl, visible⟩

/-- What holds of all characters of a separator and of some texts holds of the joined text. -/
theorem forall_mem_intercalate {p : Char → Prop} {texts : List (List Char)}
    (between : ∀ c ∈ sep, p c) (within : ∀ t ∈ texts, ∀ c ∈ t, p c) :
    ∀ c ∈ sep.intercalate texts, p c := by
  induction texts with
  | nil => simp
  | cons t texts ih =>
      obtain ⟨first, within⟩ := List.forall_mem_cons.1 within
      cases texts with
      | nil => simpa using first
      | cons next texts =>
          rw [List.intercalate_cons_cons]
          exact List.forall_mem_append.2 ⟨List.forall_mem_append.2 ⟨first, between⟩, ih within⟩

theorem Inline.intercalate {texts : List (List Char)} (between : Inline sep)
    (within : ∀ t ∈ texts, Inline t) : Inline (sep.intercalate texts) :=
  forall_mem_intercalate between within

theorem Wrapped.intercalate {texts : List (List Char)} (between : Wrapped sep)
    (within : ∀ t ∈ texts, Wrapped t) : Wrapped (sep.intercalate texts) :=
  forall_mem_intercalate between within

theorem inline_lowerHex (width n : Nat) : Inline (lowerHex width n) := by
  induction width generalizing n with
  | zero => simp [lowerHex, Inline]
  | succ width ih =>
      have digit : ∀ d < 16, 0x20 ≤ (Nat.digitChar d).toNat := by decide
      rw [lowerHex]
      exact (ih _).append (List.forall_mem_singleton.2 (digit _ (Nat.mod_lt _ (by decide))))

end Text

/-! ## Numbers -/

namespace Decimal

open Text (Inline)

variable {ds cs : List Char} {n : Nat} {i : Int}

theorem inline_of_isDigit (digits : ∀ d ∈ ds, d.isDigit = true) : Inline ds := by
  intro d mem
  have digit := digits d mem
  simp only [Char.isDigit, Bool.and_eq_true, decide_eq_true_eq] at digit
  exact Nat.le_trans (by decide) (UInt32.le_iff_toNat_le.1 digit.1)

theorem inline_digits (n : Nat) : Inline (digits n) :=
  inline_of_isDigit fun _ => Nat.isDigit_of_mem_toDigits (by decide) (by decide)

theorem Numeral.inline (numeral : Numeral cs i) : Inline cs := by
  cases numeral with
  | plain digits => exact inline_of_isDigit digits.2.1
  | plus digits => exact .cons (by decide) (inline_of_isDigit digits.2.1)
  | minus digits => exact .cons (by decide) (inline_of_isDigit digits.2.1)

theorem Numeral.ne_nil (numeral : Numeral cs i) : cs ≠ [] := by
  cases numeral with
  | plain digits => exact digits.1
  | plus | minus => exact List.cons_ne_nil _ _

theorem inline_zeros (n : Nat) : Inline (zeros n) := Text.inline_replicate (by decide) n

theorem inline_positionalText (l : Layout) (d : Decimal) : Inline (positionalText l d) := by
  have ds := inline_digits d.coefficient
  rw [positionalText]
  split
  · refine (ds.append (inline_zeros _)).append ?_
    split <;> decide
  · split
    · exact .append (fun c mem => ds c (List.mem_of_mem_take mem))
        (.cons (by decide) fun c mem => ds c (List.mem_of_mem_drop mem))
    · exact .cons (by decide) (.cons (by decide) ((inline_zeros _).append ds))

theorem inline_scientificText (l : Layout) (d : Decimal) : Inline (scientificText l d) := by
  have ds := inline_digits d.coefficient
  rw [scientificText]
  refine .append ?_ (.cons (by decide) (.append ?_ (inline_digits _)))
  · split
    · decide
    · next first eq => exact eq ▸ ds
    · next first rest _ eq =>
        obtain ⟨first, rest⟩ := List.forall_mem_cons.1 (eq ▸ ds)
        exact .cons first (.cons (by decide) rest)
  · split
    · decide
    · split <;> decide

theorem inline_decimalText (l : Layout) (d : Decimal) : Inline (l.decimalText d) := by
  rw [Layout.decimalText]
  split
  · exact inline_positionalText l d
  · exact inline_scientificText l d

theorem decimalText_ne_nil (l : Layout) (d : Decimal) : l.decimalText d ≠ [] := by
  rw [Layout.decimalText, positionalText, scientificText]
  split
  · split
    · simp [digits, Nat.toDigits_ne_nil]
    · split <;> simp
  · simp

theorem text?_inline {l : Layout} {x : Float} {t : String} (text : l.text? x = some t) :
    Inline t.toList ∧ t.toList ≠ [] := by
  obtain ⟨b, -, rfl⟩ := Option.map_eq_some_iff.1 text
  rw [String.toList_ofList]
  split
  · exact ⟨.cons (by decide) (inline_decimalText _ _), List.cons_ne_nil _ _⟩
  · exact ⟨inline_decimalText _ _, decimalText_ne_nil _ _⟩

end Decimal

namespace Json

open Text (Inline Wrapped Closed)

theorem Number.text_inline (layout : Decimal.Layout) (n : Number) :
    Inline (n.text layout).toList ∧ (n.text layout).toList ≠ [] := by
  cases n with
  | int i exact =>
      have numeral := Decimal.numeral_toString i
      exact ⟨numeral.inline, numeral.ne_nil⟩
  | float x finite =>
      rw [Number.text]
      cases text : layout.text? x with
      | none => exact ⟨by decide, by decide⟩
      | some t => exact Decimal.text?_inline text

/-! ## Quoted texts -/

theorem inline_escape (c : Char) : Inline (escape c) := by
  unfold escape
  split_ifs with _ _ _ _ _ _ _ control
  -- Seven characters have an escape of their own.
  iterate 7 decide
  · exact .cons (by decide) (.cons (by decide) (Text.inline_lowerHex 4 c.toNat))
  · exact List.forall_mem_singleton.2 (Nat.le_of_not_lt control)

/-- Quoting leaves no control character. -/
theorem inline_quote (s : String) : Inline (quote s).toList := by
  have escaped : Inline (s.toList.flatMap escape) := by
    intro c mem
    obtain ⟨d, -, mem⟩ := List.mem_flatMap.1 mem
    exact inline_escape d c mem
  simp only [quote, String.toList_append, String.toList_ofList]
  exact .append (.append (by decide) escaped) (by decide)

/-! ## On one line -/

theorem compactItems_eq_map (items : List Json) : compactItems items = items.map compact := by
  induction items with
  | nil => rfl
  | cons item rest ih => rw [compactItems, ih, List.map_cons]

theorem compactMembers_eq_map (members : List (String × Json)) :
    compactMembers members = members.map fun m => quote m.1 ++ ":" ++ compact m.2 := by
  induction members with
  | nil => rfl
  | cons member rest ih => rw [compactMembers, ih, List.map_cons]

/-- Compact text has no line breaks and no other control characters. -/
theorem inline_compact (d : Json) : Inline (compact d).toList := by
  induction d with
  | null => decide
  | bool b => cases b <;> decide
  | number n => exact (n.text_inline .json).1
  | string s => exact inline_quote s
  | array items ih =>
      rw [compact, compactItems_eq_map, String.toList_append, String.toList_append,
        String.toList_intercalate]
      refine .append (.append (by decide) (.intercalate (by decide) ?_)) (by decide)
      simp only [List.forall_mem_map]
      exact ih
  | object members ih =>
      rw [compact, compactMembers_eq_map, String.toList_append, String.toList_append,
        String.toList_intercalate]
      refine .append (.append (by decide) (.intercalate (by decide) ?_)) (by decide)
      simp only [List.forall_mem_map, String.toList_append]
      exact fun m mem => ((inline_quote m.1).append (by decide)).append (ih m mem)

theorem compact_ne_nil (d : Json) : (compact d).toList ≠ [] := by
  cases d with
  | null => decide
  | bool b => cases b <;> decide
  | number n => exact (n.text_inline .json).2
  | string | array | object => simp [compact, quote]

/-! ## On many lines -/

theorem prettyItems_eq_map (depth : Nat) (items : List Json) :
    prettyItems depth items = items.map (prettyAt depth) := by
  induction items with
  | nil => rfl
  | cons item rest ih => rw [prettyItems, ih, List.map_cons]

theorem prettyMembers_eq_map (depth : Nat) (members : List (String × Json)) :
    prettyMembers depth members = members.map fun m => quote m.1 ++ ": " ++ prettyAt depth m.2 := by
  induction members with
  | nil => rfl
  | cons member rest ih => rw [prettyMembers, ih, List.map_cons]

/-- A tree without brackets stands on one line at any depth. -/
theorem prettyAt_eq_compact (depth : Nat) {d : Json} (array : ∀ items, d ≠ .array items)
    (object : ∀ members, d ≠ .object members) : prettyAt depth d = compact d := by
  cases d with
  | null | number | string => rfl
  | bool b => cases b <;> rfl
  | array items => exact absurd rfl (array items)
  | object members => exact absurd rfl (object members)

theorem inline_margin (depth : Nat) : Inline (margin depth).toList := by
  rw [margin, String.toList_ofList]
  exact Text.inline_replicate (by decide) _

theorem wrapped_bracket {opening closing : String} (depth : Nat) {parts : List String}
    (front : Inline opening.toList) (back : Inline closing.toList)
    (within : ∀ part ∈ parts, Wrapped part.toList) :
    Wrapped (bracket opening closing depth parts).toList := by
  rw [bracket]
  split
  · rw [String.toList_append]
    exact (front.append back).wrapped
  · have lines : Wrapped
        (",\n".intercalate (parts.map (margin (depth + 1) ++ ·))).toList := by
      rw [String.toList_intercalate]
      refine .intercalate (by decide) ?_
      simp only [List.forall_mem_map, String.toList_append]
      exact fun part mem => (inline_margin _).wrapped.append (within part mem)
    have feed : Wrapped "\n".toList := by decide
    simp only [String.toList_append]
    exact ((((front.wrapped.append feed).append lines).append feed).append
      (inline_margin depth).wrapped).append back.wrapped

theorem closed_bracket {opening closing : String} (depth : Nat) (parts : List String)
    (back : Closed closing.toList) : Closed (bracket opening closing depth parts).toList := by
  rw [bracket]
  split <;> simpa only [String.toList_append] using back.append _

/-- Text on many lines has no control characters but line feeds. -/
theorem wrapped_prettyAt (depth : Nat) (d : Json) : Wrapped (prettyAt depth d).toList := by
  induction d generalizing depth with
  | null | bool | number | string =>
      rw [prettyAt_eq_compact depth (by simp) (by simp)]
      exact (inline_compact _).wrapped
  | array items ih =>
      rw [prettyAt, prettyItems_eq_map]
      refine wrapped_bracket depth (by decide) (by decide) ?_
      simpa using fun item mem => ih item mem (depth + 1)
  | object members ih =>
      rw [prettyAt, prettyMembers_eq_map]
      refine wrapped_bracket depth (by decide) (by decide) ?_
      simp only [List.forall_mem_map, String.toList_append]
      exact fun m mem => ((inline_quote m.1).append (by decide)).wrapped.append
        (ih m mem (depth + 1))

/-- Text on many lines does not end in a line feed. -/
theorem closed_prettyAt (depth : Nat) (d : Json) : Closed (prettyAt depth d).toList := by
  cases d with
  | null | bool | number | string =>
      rw [prettyAt_eq_compact depth (by simp) (by simp)]
      exact (inline_compact _).closed (compact_ne_nil _)
  | array items => exact closed_bracket depth _ ⟨']', rfl, by decide⟩
  | object members => exact closed_bracket depth _ ⟨'\x7d', rfl, by decide⟩

end Json

end DataShape
