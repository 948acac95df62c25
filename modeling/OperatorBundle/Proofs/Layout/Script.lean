import OperatorBundle.Proofs.Layout.Chunks

/-!
Edit scripts. A script goes through the lines of a source in order: a line is kept, or a run of
lines is rewritten, or a text is added between them. What is kept stands in the text of the script
as it stands in the source.
-/

namespace OperatorBundle.Layout

open OperatorBundle.Text

/-- One step of an edit script. -/
inductive Piece
  /-- A line of the source, as it is. -/
  | kept (line : Line)
  /-- Lines of the source, with the text in place of them. -/
  | rewritten (body : List Line) (text : List Char)
  /-- A text that stands for no line of the source. -/
  | added (text : List Char)

namespace Piece

/-- The lines of the source that a piece stands for. -/
def source : Piece → List Line
  | kept line => [line]
  | rewritten body _ => body
  | added _ => []

/-- What a piece puts in place of them. -/
def text : Piece → List Char
  | kept line => line
  | rewritten _ text => text
  | added text => text

/-- A piece with the dash of an item at an indentation, in the source and in the text. -/
def dash (indent : Nat) : Piece → Piece
  | kept line => kept (line.set indent '-')
  | rewritten body text => rewritten (body.modifyHead (·.set indent '-')) (text.set indent '-')
  | added text => added text

end Piece

/-- The text of a script. A line feed is put after a line that has none if more text follows it;
only the last line of a source can be such a line. -/
def scriptText : List Piece → List Char
  | [] => []
  | .kept line :: more =>
    if (scriptText more).isEmpty || line.getLast? = some '\n' then line ++ scriptText more
    else line ++ '\n' :: scriptText more
  | .rewritten _ text :: more => text ++ scriptText more
  | .added text :: more => text ++ scriptText more

/-- A script with the dash of an item put back where it begins. -/
def withDash (indent : Nat) : List Piece → List Piece
  | [] => []
  | piece :: more => piece.dash indent :: more

/-- Whether a piece is one that a script for lines with this first line can begin with: it keeps the
line, or rewrites it at the line's indentation. -/
inductive Piece.Begins (first : Line) : Piece → Prop
  | kept : Begins first (.kept first)
  | rewritten {more : List Line} {text : List Char} (h : StartsAt (indentation first) text) :
    Begins first (.rewritten (first :: more) text)

/-- A script that turns lines into a text. -/
structure Turns (lines : List Line) (out : List Char) (script : List Piece) : Prop where
  source : script.flatMap Piece.source = lines
  text : onOwnLines (script.map Piece.text) = out
  /-- It begins where the lines begin. -/
  begins : ∀ first ∈ lines.head?, ∃ piece ∈ script.head?, piece.Begins first
  /-- What is not kept ends its last line. -/
  ended : ∀ piece ∈ script, (∃ line ≠ [], piece = .kept line) ∨ piece.text.getLast? = some '\n'

namespace Turns

theorem nil : Turns [] [] [] := ⟨rfl, rfl, by simp, by simp⟩

theorem kept {lines : List Line} (h : AreLines lines) :
    Turns lines lines.flatten (lines.map .kept) := by
  refine ⟨by simp [List.flatMap_map, Piece.source], ?_, ?_, ?_⟩
  · rw [List.map_map, ← h.flatten_eq_onOwnLines]
    congr 1
    exact List.map_id lines
  · intro first hfirst
    refine ⟨.kept first, ?_, .kept⟩
    rw [List.head?_map, hfirst, Option.map_some]
    rfl
  · intro piece hpiece
    obtain ⟨line, hline, rfl⟩ := List.mem_map.1 hpiece
    exact .inl ⟨line, (h.isLine line hline).ne_nil, rfl⟩

theorem rewritten {first : Line} {more : List Line} {text : List Char}
    (h : StartsAt (indentation first) text) :
    Turns (first :: more) text [.rewritten (first :: more) text] := by
  refine ⟨by simp [Piece.source], by simp [Piece.text, onOwnLines_cons], ?_, ?_⟩
  · rintro _ ⟨⟩
    exact ⟨_, rfl, .rewritten h⟩
  · intro piece hpiece
    obtain rfl := List.mem_singleton.1 hpiece
    exact .inr h.ended

theorem added {indent : Nat} {text : List Char} (h : StartsAt indent text) :
    Turns [] text [.added text] := by
  refine ⟨rfl, by simp [Piece.text, onOwnLines_cons], by simp, ?_⟩
  intro piece hpiece
  obtain rfl := List.mem_singleton.1 hpiece
  exact .inr h.ended

/-- Scripts for lines that follow one another. -/
theorem append {lines₁ lines₂ : List Line} {out₁ out₂ : List Char} {script₁ script₂ : List Piece}
    (h₁ : Turns lines₁ out₁ script₁) (h₂ : Turns lines₂ out₂ script₂)
    (hbegins : lines₁ = [] → script₁ = [] ∨ lines₂ = []) :
    Turns (lines₁ ++ lines₂) (joined out₁ out₂) (script₁ ++ script₂) := by
  constructor
  case source => rw [List.flatMap_append, h₁.source, h₂.source]
  case text => rw [List.map_append, onOwnLines_append, h₁.text, h₂.text]
  case begins =>
    intro first hfirst
    cases hlines : lines₁ with
    | nil =>
      rw [hlines, List.nil_append] at hfirst
      rcases hbegins hlines with rfl | rfl
      · exact h₂.begins first hfirst
      · cases hfirst
    | cons line more =>
      rw [hlines, List.cons_append] at hfirst
      obtain ⟨piece, hpiece, hb⟩ := h₁.begins first (by rw [hlines]; exact hfirst)
      exact ⟨piece, by simp [Option.mem_def.1 hpiece], hb⟩
  case ended =>
    intro piece hpiece
    rcases List.mem_append.1 hpiece with hpiece | hpiece
    · exact h₁.ended piece hpiece
    · exact h₂.ended piece hpiece

/-- The dash of an item goes where its lines begin. -/
theorem dash {indent : Nat} {more : List Char} {nested : List Line} {out : List Char}
    {script : List Piece} (h : Turns ((spaces indent ++ ' ' :: more) :: nested) out script) :
    Turns ((spaces indent ++ '-' :: more) :: nested) (out.set indent '-')
      (withDash indent script) := by
  -- the dash goes into the first piece, which has a space in its place
  obtain ⟨piece, hpiece, hbegins⟩ := h.begins _ rfl
  obtain ⟨rest, rfl⟩ : ∃ rest, script = piece :: rest := by
    cases script with
    | nil => cases hpiece
    | cons first rest => exact ⟨rest, by simpa using hpiece⟩
  obtain ⟨src, hsource, hdashed⟩ : ∃ src,
      piece.source = (spaces indent ++ ' ' :: more) :: src ∧
        (piece.dash indent).source = (spaces indent ++ '-' :: more) :: src := by
    cases hbegins with
    | kept => exact ⟨[], rfl, by simp [Piece.dash, Piece.source, set_spaces]⟩
    | @rewritten body text _ => exact ⟨body, rfl, by simp [Piece.dash, Piece.source, set_spaces]⟩
  have htext : (piece.dash indent).text = piece.text.set indent '-' := by
    cases hbegins <;> rfl
  -- that of a rewritten piece is among the spaces that it starts with
  have hat : piece.text[indent]? = some ' ' := by
    cases hbegins with
    | kept => simp [Piece.text, spaces]
    | rewritten hstarts => exact hstarts.getElem? (lt_indentation_blanked indent more)
  constructor
  case source =>
    have hlines := h.source
    rw [List.flatMap_cons, hsource, List.cons_append, List.cons.injEq] at hlines
    rw [withDash, List.flatMap_cons, hdashed, List.cons_append, hlines.2]
  case text =>
    rw [← h.text, withDash, List.map_cons, List.map_cons, onOwnLines_cons, onOwnLines_cons, htext,
      joined_dash hat]
  case begins =>
    rintro _ ⟨⟩
    refine ⟨piece.dash indent, rfl, ?_⟩
    cases hbegins with
    | kept =>
      rw [Piece.dash, set_spaces]
      exact .kept
    | @rewritten body text hstarts =>
      simp only [Piece.dash, List.modifyHead_cons, set_spaces]
      refine .rewritten ?_
      rw [indentation_dashed]
      exact hstarts.dash (lt_indentation_blanked indent more)
  case ended =>
    refine List.forall_mem_cons.2 ⟨?_, (List.forall_mem_cons.1 h.ended).2⟩
    cases hbegins with
    | kept => exact .inl ⟨_, by simp [set_spaces], rfl⟩
    | rewritten hstarts => exact .inr (hstarts.dash (lt_indentation_blanked indent more)).ended

theorem scriptText_eq {lines : List Line} {out : List Char} {script : List Piece}
    (h : Turns lines out script) : scriptText script = out := by
  rw [← h.text]
  have hended := h.ended
  clear h
  induction script with
  | nil => rfl
  | cons piece more ih =>
    obtain ⟨hpiece, hmore⟩ := List.forall_mem_cons.1 hended
    rw [List.map_cons, onOwnLines_cons, ← ih hmore]
    cases piece with
    | kept line =>
      have hne : line ≠ [] := by
        rcases hpiece with ⟨_, hne, hkept⟩ | hlast
        · exact Piece.kept.inj hkept ▸ hne
        · rintro rfl
          cases hlast
      have hempty : line.isEmpty = false := by rwa [List.isEmpty_eq_false_iff]
      simp only [scriptText, joined, Piece.text, hempty, Bool.false_or]
      rfl
    | rewritten body text =>
      rcases hpiece with ⟨_, _, hkept⟩ | hlast
      · cases hkept
      · exact (joined_of_ended hlast _).symm
    | added text =>
      rcases hpiece with ⟨_, _, hkept⟩ | hlast
      · cases hkept
      · exact (joined_of_ended hlast _).symm

end Turns

end OperatorBundle.Layout
