/-!
Lines of a text. A line keeps the line feed that ends it, so the lines of a text concatenate to it.
-/

namespace OperatorBundle.Text

/-- A line with its line feed, if it has one. -/
abbrev Line := List Char

/-- The lines of a text; the empty text has none. -/
def lines : List Char → List Line
  | [] => []
  | c :: rest =>
    if c = '\n' then [c] :: lines rest
    else match lines rest with
      | [] => [[c]]
      | line :: more => (c :: line) :: more

@[simp] theorem lines_nil : lines [] = [] := rfl

/-- Nothing is lost between the lines. -/
@[simp] theorem flatten_lines (cs : List Char) : (lines cs).flatten = cs := by
  induction cs with
  | nil => rfl
  | cons c rest ih =>
    by_cases h : c = '\n'
    · simp [lines, h, ih]
    · rw [lines, if_neg h]
      cases hl : lines rest with
      | nil => rw [hl] at ih; simp [← ih]
      | cons line more => rw [hl] at ih; simpa using ih

/-- No line is empty. -/
theorem ne_nil_of_mem_lines {cs : List Char} {line : Line} (h : line ∈ lines cs) : line ≠ [] := by
  induction cs generalizing line with
  | nil => simp at h
  | cons c rest ih =>
    by_cases hc : c = '\n'
    · simp only [lines, hc, if_true, List.mem_cons] at h
      rcases h with rfl | h
      · simp
      · exact ih h
    · rw [lines, if_neg hc] at h
      cases hl : lines rest with
      | nil => rw [hl] at h; simp_all
      | cons l more =>
        rw [hl] at h
        rcases List.mem_cons.1 h with rfl | h
        · simp
        · exact ih (by rw [hl]; exact List.mem_cons_of_mem _ h)

/-- A line without the line feeds and carriage returns that end it. -/
def content (line : Line) : List Char :=
  (line.reverse.dropWhile fun c => c = '\n' || c = '\r').reverse

/-- The number of spaces a line starts with. -/
def indentation (line : Line) : Nat := (line.takeWhile (· = ' ')).length

/-- A run of spaces. -/
def spaces (n : Nat) : List Char := List.replicate n ' '

end OperatorBundle.Text
