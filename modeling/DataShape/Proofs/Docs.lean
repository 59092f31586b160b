import DataShape.Docs
import DataShape.Proofs.Json.Text
import DataShape.Proofs.Text.Lines

/-!
# The layout of documentation texts

A definition stands on one line if that fits beside the indentation, and else on many
(`rendering`).  JSON text has no carriage returns and does not end in a line feed, so its lines are
what is between its line feeds, and an indentation changes nothing else (`lines_rendering`).  The
same holds of the block with its heading, which is indented once more (`toList_indent_block`).

So the text that `append` makes is known line by line, and the definition can be read back from it.
What is added is as deep as the text, so the margin stays if there is one (`append_layout`).
-/

namespace DataShape.Docs

open Text (lines unlines indent indents margin leadingSpaces)

/-- The definition of a schema on one line if that takes at most eighty columns four spaces deeper
than `depth`, and else on many lines. -/
def rendering (depth : Nat) (s : Schema) : String :=
  if depth + 4 + s.toDefinition.compact.length ≤ 80 then s.toDefinition.compact
  else s.toDefinition.pretty

/-- The first line of the block of a schema. -/
def heading : List Char := "Return datatype:".toList

variable (depth : Nat) (s : Schema)

/-! ## The rendering -/

/-- Where the indentation takes all columns the width is zero, and no definition is that short. -/
theorem fit_eq_rendering : fit s (columns - depth - step) = rendering depth s := by
  have nonempty : 0 < s.toDefinition.compact.length := by
    rw [← String.length_toList]
    exact List.length_pos_iff.2 (Json.compact_ne_nil _)
  have fits : s.toDefinition.compact.length ≤ columns - depth - step ↔
      depth + 4 + s.toDefinition.compact.length ≤ 80 := by
    rw [columns, step]
    omega
  exact if_congr fits rfl rfl

theorem rendering_cases :
    rendering depth s = s.toDefinition.compact ∨ rendering depth s = s.toDefinition.pretty := by
  rw [rendering]
  split
  · exact .inl rfl
  · exact .inr rfl

theorem wrapped_rendering : Text.Wrapped (rendering depth s).toList := by
  rcases rendering_cases depth s with eq | eq
  · exact eq ▸ (Json.inline_compact _).wrapped
  · exact eq ▸ Json.wrapped_prettyAt 0 _

theorem closed_rendering : Text.Closed (rendering depth s).toList := by
  rcases rendering_cases depth s with eq | eq
  · exact eq ▸ (Json.inline_compact _).closed (Json.compact_ne_nil _)
  · exact eq ▸ Json.closed_prettyAt 0 _

/-- What is between the line feeds of a definition. -/
def pieces : List (List Char) := (rendering depth s).toList.splitOn '\n'

theorem lines_rendering : lines (rendering depth s).toList = pieces depth s :=
  Text.lines_eq_splitOn (wrapped_rendering depth s).carriage_not_mem
    (closed_rendering depth s).ne_nil (closed_rendering depth s).getLast?_ne

theorem pieces_ne_nil : pieces depth s ≠ [] := List.splitOn_ne_nil _ _

/-- A definition has no control characters but the line feeds between its pieces. -/
theorem inline_of_mem_pieces {line : List Char} (mem : line ∈ pieces depth s) :
    Text.Inline line := by
  obtain ⟨free, within⟩ := Text.of_mem_splitOn mem
  intro c mem
  exact (wrapped_rendering depth s c (within mem)).resolve_right fun feed => free (feed ▸ mem)

/-! ## The block -/

/-- The lines of a block behind an indentation: the heading and, four spaces deeper, the pieces of
a definition. -/
def blockLines (depth : Nat) (pieces : List (List Char)) : List (List Char) :=
  (List.replicate depth ' ' ++ heading) :: pieces.map (List.replicate (depth + 4) ' ' ++ ·)

theorem map_blockLines_zero (depth : Nat) (pieces : List (List Char)) :
    (blockLines 0 pieces).map (List.replicate depth ' ' ++ ·) = blockLines depth pieces := by
  have deeper (piece : List Char) :
      List.replicate depth ' ' ++ (List.replicate (0 + 4) ' ' ++ piece) =
        List.replicate (depth + 4) ' ' ++ piece := by
    rw [← List.append_assoc, List.replicate_append_replicate, Nat.zero_add]
  rw [blockLines, blockLines, List.map_cons, List.map_map, List.replicate_zero, List.nil_append]
  exact congrArg _ (List.map_congr_left fun piece _ => deeper piece)

theorem inline_of_mem_blockLines {n : Nat} {line : List Char}
    (mem : line ∈ blockLines n (pieces depth s)) : Text.Inline line := by
  rw [blockLines] at mem
  rcases List.mem_cons.1 mem with rfl | mem
  · exact (Text.inline_replicate (by decide) n).append (by decide)
  · obtain ⟨piece, part, rfl⟩ := List.mem_map.1 mem
    exact (Text.inline_replicate (by decide) _).append (inline_of_mem_pieces depth s part)

theorem free_blockLines (n : Nat) : ∀ line ∈ blockLines n (pieces depth s), '\n' ∉ line :=
  fun _ mem => (inline_of_mem_blockLines depth s mem).not_mem (by decide)

theorem ne_nil_of_mem_blockLines {n : Nat} {line : List Char} {pieces : List (List Char)}
    (mem : line ∈ blockLines n pieces) : line ≠ [] := by
  rw [blockLines] at mem
  rcases List.mem_cons.1 mem with rfl | mem
  · exact List.append_ne_nil_of_right_ne_nil _ (by decide)
  · obtain ⟨piece, -, rfl⟩ := List.mem_map.1 mem
    exact List.append_ne_nil_of_left_ne_nil (List.cons_ne_nil _ _) piece

/-- The block of a schema before it is indented. -/
theorem toList_block :
    (block s (columns - depth)).toList = unlines (blockLines 0 (pieces depth s)) := by
  have more : (pieces depth s).map (List.replicate (0 + 4) ' ' ++ ·) ≠ [] := by
    rw [ne_eq, List.map_eq_nil_iff]
    exact pieces_ne_nil depth s
  have first : "Return datatype:\n".toList = heading ++ ['\n'] := by decide
  show ("Return datatype:\n" ++ indent step (fit s (columns - depth - step))).toList = _
  rw [fit_eq_rendering, String.toList_append, Text.toList_indent, lines_rendering, first,
    show step = 0 + 4 from rfl, blockLines, Text.unlines_cons more, List.append_assoc,
    List.singleton_append, List.replicate_zero, List.nil_append]

/-- The second indentation finds the lines that the first one has made. -/
theorem toList_indent_block :
    (indent depth (block s (columns - depth))).toList =
      unlines (blockLines depth (pieces depth s)) := by
  -- No line is empty, so not even the last one is lost.
  have found : lines (unlines (blockLines 0 (pieces depth s))) = blockLines 0 (pieces depth s) :=
    Text.lines_unlines (free_blockLines depth s 0)
      (fun _ mem => (inline_of_mem_blockLines depth s mem).not_mem (by decide))
      (fun last => ne_nil_of_mem_blockLines (List.mem_of_getLast? last) rfl)
  rw [Text.toList_indent, toList_block, found, map_blockLines_zero]

/-- A text with the block of a schema behind it. -/
theorem toList_append (doc : String) : (append doc s).toList =
    doc.toList ++ '\n' :: '\n' :: unlines (blockLines (margin doc) (pieces (margin doc) s)) := by
  have gap : "\n\n".toList = ['\n', '\n'] := by decide
  rw [append, String.toList_append, String.toList_append, toList_indent_block, gap,
    List.append_assoc, List.cons_append, List.singleton_append]

/-- The pieces of a text with the block of a schema behind it. -/
theorem splitOn_append (doc : String) : (append doc s).toList.splitOn '\n' =
    doc.toList.splitOn '\n' ++ [] :: blockLines (margin doc) (pieces (margin doc) s) := by
  have gap : ∀ cs : List Char, ('\n' :: cs).splitOn '\n' = [] :: cs.splitOn '\n' :=
    List.splitOn_append_cons_self_of_not_mem (List.not_mem_nil : '\n' ∉ [])
  rw [toList_append, List.splitOn_append_cons_self, gap,
    Text.splitOn_unlines (free_blockLines _ s _) (List.cons_ne_nil _ _)]

/-- No line of a block is less deep than its indentation. -/
theorem le_of_mem_indents_blockLines {n k : Nat}
    (mem : k ∈ indents (unlines (blockLines n (pieces depth s)))) : n ≤ k := by
  rw [Text.indents_unlines (free_blockLines depth s n)] at mem
  obtain ⟨line, kept, rfl⟩ := List.mem_map.1 mem
  rcases List.mem_cons.1 (List.mem_filter.1 kept).1 with rfl | mem
  · rw [Text.leadingSpaces_append]
    exact Nat.le_add_right _ _
  · obtain ⟨piece, -, rfl⟩ := List.mem_map.1 mem
    rw [Text.leadingSpaces_append, Nat.add_assoc]
    exact Nat.le_add_right _ _

/-- What is put behind a text with a margin has the same margin. -/
theorem margin_append {doc : String} (pos : 0 < margin doc) :
    margin (append doc s) = margin doc := by
  obtain ⟨least, others⟩ := (Text.margin_eq_iff pos).1 rfl
  have gap : indents [] = [] := by decide
  rw [Text.margin_eq_iff pos, toList_append, Text.indents_append_newline,
    ← List.nil_append ('\n' :: _), Text.indents_append_newline, gap, List.nil_append]
  refine ⟨List.mem_append_left _ least, List.forall_mem_append.2 ⟨others, fun k mem => ?_⟩⟩
  exact .inr (le_of_mem_indents_blockLines _ s mem)

/-! ## The layout -/

/-- The text, a blank line, the heading as deep as the text, and the lines of the definition four
spaces deeper.  Without this indentation they are the definition as it was rendered, since there is
no line feed in compact text and no carriage return in either. -/
theorem append_layout (doc : String) (s : Schema) :
    (append doc s).toList = doc.toList ++ '\n' :: '\n' :: ['\n'].intercalate
      ((List.replicate (margin doc) ' ' ++ "Return datatype:".toList) ::
        ((rendering (margin doc) s).toList.splitOn '\n').map
          (List.replicate (margin doc + 4) ' ' ++ ·)) ∧
    ['\n'].intercalate ((((append doc s).toList.splitOn '\n').drop
      ((doc.toList.splitOn '\n').length + 2)).map (List.drop (margin doc + 4))) =
        (rendering (margin doc) s).toList ∧
    ('\n' ∉ s.toDefinition.compact.toList ∧ '\r' ∉ s.toDefinition.compact.toList) ∧
    '\r' ∉ (rendering (margin doc) s).toList ∧
    (0 < margin doc → margin (append doc s) = margin doc) := by
  have inline := Json.inline_compact s.toDefinition
  refine ⟨?_, ?_, ⟨inline.not_mem (by decide), inline.not_mem (by decide)⟩,
    (wrapped_rendering _ s).carriage_not_mem, margin_append s⟩
  · rw [toList_append, Text.unlines_eq_intercalate]
    rfl
  · have undone :
        List.drop (margin doc + 4) ∘ (List.replicate (margin doc + 4) ' ' ++ ·) = id := by
      funext piece
      simp
    rw [splitOn_append, List.drop_length_add_append, blockLines, List.drop_succ_cons,
      List.drop_succ_cons, List.drop_zero, List.map_map, undone, List.map_id, pieces,
      List.intercalate_splitOn]

/-- A text of four spaces keeps them. -/
theorem indented_text_layout :
    margin "Some\n    multiline\n    text." = 4 ∧
      margin (append "Some\n    multiline\n    text." (.list (.primitive ⟨.int, true⟩))) = 4 := by
  have four : margin "Some\n    multiline\n    text." = 4 := by decide
  obtain ⟨-, -, -, -, kept⟩ :=
    append_layout "Some\n    multiline\n    text." (.list (.primitive ⟨.int, true⟩))
  exact ⟨four, four ▸ kept (four ▸ Nat.succ_pos 3)⟩

example : append "Some\n    multiline\n    text." (.list (.primitive ⟨.int, true⟩)) =
    "Some\n    multiline\n    text.\n\n    Return datatype:\n        [\"nullable int\"]" := by
  decide +kernel

end DataShape.Docs
