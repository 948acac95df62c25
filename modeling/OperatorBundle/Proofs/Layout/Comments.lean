import OperatorBundle.Proofs.Layout.Chunks

/-!
Comment lines. A comment is taken without the end of its line, so the comments of a rendering are
those of its parts, wherever line feeds had to be put between them.
-/

namespace OperatorBundle.Layout

open OperatorBundle.Text

/-- Whether a text holds a comment and nothing else. -/
def isComment (text : List Char) : Bool := (trimLeft text).head? = some '#'

/-- The comments among lines, each without the end of its line. -/
def comments (lines : List Line) : List (List Char) := (lines.map content).filter isComment

@[simp] theorem comments_nil : comments [] = [] := rfl

@[simp] theorem comments_append (lines more : List Line) :
    comments (lines ++ more) = comments lines ++ comments more := by
  rw [comments, List.map_append, List.filter_append]
  rfl

theorem comments_cons (line : Line) (more : List Line) :
    comments (line :: more) = comments [line] ++ comments more :=
  comments_append [line] more

theorem comments_sublist_iff {part lines : List Line} :
    (comments part).Sublist (lines.map content) ↔ (comments part).Sublist (comments lines) := by
  constructor
  · intro h
    -- only a comment can be one of the comments
    have hfilter := h.filter isComment
    simpa only [comments, List.filter_filter, Bool.and_self] using hfilter
  · intro h
    exact h.trans List.filter_sublist

theorem comments_of_starts {kind : BlockKind} {indent : Nat} {line : Line}
    (h : lineRole kind indent line = .starts) : comments [line] = [] := by
  have hblank := (lineRole_eq_starts h).1
  unfold isBlankOrComment at hblank
  have hnot : isComment (content line) = false := by
    unfold isComment
    cases htrim : trimLeft (content line) with
    | nil => rfl
    | cons c rest =>
      rw [htrim] at hblank
      simpa using hblank
  simp [comments, hnot]

theorem content_append_cons {c : Char} (hc : c ≠ '\n' ∧ c ≠ '\r') (line more : List Char) :
    content (line ++ c :: more) = line ++ c :: content more := by
  have hlast : (c = '\n' || c = '\r') = false := by simp [hc]
  unfold content
  rw [List.reverse_append, List.reverse_cons, List.append_assoc, List.dropWhile_append]
  split
  · rename_i hempty
    rw [List.isEmpty_iff] at hempty
    rw [hempty, List.singleton_append, List.dropWhile_cons_of_neg (by simp [hc])]
    simp
  · simp

theorem comments_dashed (indent : Nat) (more : List Char) :
    comments [spaces indent ++ '-' :: more] = [] := by
  have hspaces : ∀ c ∈ spaces indent, isBlank c = true := by
    intro c hc
    rw [List.eq_of_mem_replicate hc]
    rfl
  have hdash : isBlank '-' = false := by decide
  simp [comments, content_append_cons, isComment, trimLeft, List.dropWhile_append_of_pos hspaces,
    hdash]

/-! ### Lines of a rendering -/

theorem lines_append_of_ended {part : List Char} (h : part.getLast? = some '\n')
    (rest : List Char) : lines (part ++ rest) = lines part ++ lines rest := by
  induction part with
  | nil => cases h
  | cons c part ih =>
    by_cases hnil : part = []
    · subst hnil
      obtain rfl : c = '\n' := by simpa using h
      simp [lines]
    have hpart : part.getLast? = some '\n' := by
      rwa [List.getLast?_cons_of_ne_nil hnil] at h
    by_cases hc : c = '\n'
    · simp [lines, hc, ih hpart]
    · rw [List.cons_append, lines, if_neg hc, lines, if_neg hc, ih hpart]
      cases hl : lines part with
      | nil =>
        have hflat := flatten_lines part
        rw [hl] at hflat
        exact absurd hflat.symm hnil
      | cons line more => rfl

theorem content_cons (c : Char) (line : Line) :
    content (c :: line) =
      if content line = [] ∧ (c = '\n' ∨ c = '\r') then [] else c :: content line := by
  unfold content
  rw [List.reverse_cons, List.dropWhile_append]
  -- a line end in front belongs to the end of the line only if nothing else follows it
  by_cases hempty : line.reverse.dropWhile (fun c => c = '\n' || c = '\r') = []
  · by_cases hc : c = '\n' ∨ c = '\r'
    · simp [hempty, hc]
    · simp [hempty, hc]
  · simp [hempty]

/-- Ending the last line changes no line's content. -/
theorem map_content_lines_newline {part : List Char} (h : part ≠ [])
    (hended : part.getLast? ≠ some '\n') :
    (lines (part ++ ['\n'])).map content = (lines part).map content := by
  induction part with
  | nil => exact absurd rfl h
  | cons c part ih =>
    by_cases hnil : part = []
    · subst hnil
      have hc : c ≠ '\n' := by simpa using hended
      simp [lines, hc, content]
    rw [List.getLast?_cons_of_ne_nil hnil] at hended
    have ih := ih hnil hended
    by_cases hc : c = '\n'
    · simp [lines, hc, ih]
    · rw [List.cons_append, lines, if_neg hc, lines, if_neg hc]
      cases hl : lines part with
      | nil =>
        have hflat := flatten_lines part
        rw [hl] at hflat
        exact absurd hflat.symm hnil
      | cons line more =>
        cases hl' : lines (part ++ ['\n']) with
        | nil => simp [hl, hl'] at ih
        | cons line' more' =>
          rw [hl, hl', List.map_cons, List.map_cons, List.cons.injEq] at ih
          rw [List.map_cons, List.map_cons, content_cons, content_cons, ih.1, ih.2]

theorem map_content_joined (part rest : List Char) :
    (lines (joined part rest)).map content =
      (lines part).map content ++ (lines rest).map content := by
  by_cases hpart : part = []
  · simp [hpart]
  by_cases hrest : rest = []
  · simp [hrest]
  by_cases hended : part.getLast? = some '\n'
  · rw [joined_of_ended hended, lines_append_of_ended hended, List.map_append]
  · have hlast : (part ++ ['\n']).getLast? = some '\n' := by simp
    rw [joined_of_not_ended hpart hrest hended, ← List.singleton_append, ← List.append_assoc,
      lines_append_of_ended hlast, List.map_append, map_content_lines_newline hpart hended]

theorem comments_onOwnLines (parts : List (List Char)) :
    comments (lines (onOwnLines parts)) = parts.flatMap fun part => comments (lines part) := by
  induction parts with
  | nil => rfl
  | cons part parts ih =>
    rw [onOwnLines_cons, comments, map_content_joined, List.filter_append, List.flatMap_cons, ← ih]
    rfl

theorem IsLine.lines_eq {line : Line} (h : IsLine line) : lines line = [line] := by
  induction line with
  | nil => exact absurd rfl h.ne_nil
  | cons c line ih =>
    cases line with
    | nil => by_cases hc : c = '\n' <;> simp [lines, hc]
    | cons d line =>
      have hsingle := h.single
      rw [List.dropLast_cons_of_ne_nil (List.cons_ne_nil d line), List.mem_cons, not_or] at hsingle
      rw [lines, if_neg (Ne.symm hsingle.1), ih ⟨List.cons_ne_nil d line, hsingle.2⟩]

theorem comments_of_isLine {parts : List Line} (h : ∀ part ∈ parts, IsLine part) :
    parts.flatMap (fun part => comments (lines part)) = comments parts := by
  induction parts with
  | nil => rfl
  | cons part parts ih =>
    obtain ⟨hpart, hparts⟩ := List.forall_mem_cons.1 h
    rw [List.flatMap_cons, ih hparts, hpart.lines_eq, ← comments_cons]

end OperatorBundle.Layout
