import Mathlib.Data.List.Chain
import Mathlib.Data.List.Induction
import Mathlib.Tactic.Common
import OperatorBundle.Layout.Render
import OperatorBundle.Proofs.Yaml.WrittenForm

/-!
The parts of a rendering. Parts are put one after the other, each on lines of its own; this does not
depend on how they are grouped, and of the lines of a text nothing is changed. Entries and items
written anew start at the indentation of their collection and end their last line.
-/

namespace OperatorBundle.Layout

open OperatorBundle.Text

/-! ### Joining -/

/-- Two parts, the second on a line of its own. -/
def joined (part rest : List Char) : List Char :=
  if part.isEmpty || rest.isEmpty || part.getLast? = some '\n' then part ++ rest
  else part ++ '\n' :: rest

@[simp] theorem onOwnLines_nil : onOwnLines [] = [] := rfl

theorem onOwnLines_cons (part : List Char) (more : List (List Char)) :
    onOwnLines (part :: more) = joined part (onOwnLines more) := rfl

@[simp] theorem joined_nil_left (rest : List Char) : joined [] rest = rest := by simp [joined]

@[simp] theorem joined_nil_right (part : List Char) : joined part [] = part := by simp [joined]

theorem joined_of_ended {part : List Char} (h : part.getLast? = some '\n') (rest : List Char) :
    joined part rest = part ++ rest := by simp [joined, h]

theorem joined_of_not_ended {part rest : List Char} (hpart : part ≠ []) (hrest : rest ≠ [])
    (h : part.getLast? ≠ some '\n') : joined part rest = part ++ '\n' :: rest := by
  simp [joined, h, hpart, hrest]

theorem joined_eq_nil {part rest : List Char} : joined part rest = [] ↔ part = [] ∧ rest = [] := by
  unfold joined
  split
  · simp
  · rename_i h
    simp only [Bool.or_eq_true, List.isEmpty_iff, not_or] at h
    simp [h.1.1]

theorem getLast?_joined {part rest : List Char} (hrest : rest ≠ []) :
    (joined part rest).getLast? = rest.getLast? := by
  unfold joined
  split
  · exact List.getLast?_append_of_ne_nil _ hrest
  · rw [List.getLast?_append_of_ne_nil _ (List.cons_ne_nil _ _)]
    obtain ⟨c, more, rfl⟩ := List.exists_cons_of_ne_nil hrest
    rw [List.getLast?_cons_cons]

theorem joined_assoc (a b c : List Char) : joined (joined a b) c = joined a (joined b c) := by
  by_cases ha : a = []
  · simp [ha]
  by_cases hb : b = []
  · simp [hb]
  by_cases hc : c = []
  · simp [hc]
  have hbc : joined b c ≠ [] := by simp [joined_eq_nil, hb]
  have hlast : (joined a b).getLast? = b.getLast? := getLast?_joined hb
  have hab : joined a b ≠ [] := by simp [joined_eq_nil, ha]
  -- a line feed goes in at each of the two seams where none stands, however they are taken
  by_cases hae : a.getLast? = some '\n'
  · rw [joined_of_ended hae, joined_of_ended hae] at *
    by_cases hbe : b.getLast? = some '\n'
    · rw [joined_of_ended (hlast.trans hbe), joined_of_ended hbe, List.append_assoc]
    · rw [joined_of_not_ended hab hc (hlast ▸ hbe), joined_of_not_ended hb hc hbe,
        List.append_assoc]
  · rw [joined_of_not_ended ha hb hae, joined_of_not_ended ha hbc hae] at *
    by_cases hbe : b.getLast? = some '\n'
    · rw [joined_of_ended (hlast.trans hbe), joined_of_ended hbe, List.append_assoc]
      rfl
    · rw [joined_of_not_ended hab hc (hlast ▸ hbe), joined_of_not_ended hb hc hbe,
        List.append_assoc]
      rfl

theorem onOwnLines_append (parts more : List (List Char)) :
    onOwnLines (parts ++ more) = joined (onOwnLines parts) (onOwnLines more) := by
  induction parts with
  | nil => simp
  | cons part parts ih => rw [List.cons_append, onOwnLines_cons, ih, onOwnLines_cons, joined_assoc]

/-- Parts may be joined in groups. -/
theorem onOwnLines_group (parts more : List (List Char)) :
    onOwnLines (onOwnLines parts :: more) = onOwnLines (parts ++ more) := by
  rw [onOwnLines_cons, onOwnLines_append]

/-! ### Lines -/

/-- A line as a text has it: not empty, and with a line feed at its end only. -/
structure IsLine (line : Line) : Prop where
  ne_nil : line ≠ []
  single : '\n' ∉ line.dropLast

/-- Lines as a text has them: each but the last ends in a line feed. -/
structure AreLines (lines : List Line) : Prop where
  isLine : ∀ line ∈ lines, IsLine line
  ended : lines.IsChain fun line _ => line.getLast? = some '\n'

namespace AreLines

theorem of_isInfix {lines part : List Line} (h : AreLines lines) (hpart : part <:+: lines) :
    AreLines part :=
  ⟨fun line hline => h.isLine line (hpart.subset hline), h.ended.infix hpart⟩

theorem flatten_eq_onOwnLines {lines : List Line} (h : AreLines lines) :
    onOwnLines lines = lines.flatten := by
  induction lines with
  | nil => rfl
  | cons line more ih =>
    have hmore : AreLines more := h.of_isInfix (List.suffix_cons line more).isInfix
    rw [onOwnLines_cons, ih hmore, List.flatten_cons]
    cases more with
    | nil => simp
    | cons next rest => exact joined_of_ended (List.isChain_cons_cons.1 h.ended).1 _

end AreLines

theorem isLine_of_mem_lines {cs : List Char} : ∀ line ∈ lines cs, IsLine line := by
  induction cs with
  | nil => simp
  | cons c rest ih =>
    by_cases hc : c = '\n'
    · rw [lines, if_pos hc]
      exact List.forall_mem_cons.2 ⟨⟨by simp, by simp⟩, ih⟩
    · rw [lines, if_neg hc]
      cases hl : lines rest with
      | nil => exact List.forall_mem_cons.2 ⟨⟨by simp, by simp⟩, by simp⟩
      | cons line more =>
        rw [hl] at ih
        obtain ⟨hline, hmore⟩ := List.forall_mem_cons.1 ih
        refine List.forall_mem_cons.2 ⟨⟨by simp, ?_⟩, hmore⟩
        rw [List.dropLast_cons_of_ne_nil hline.ne_nil, List.mem_cons]
        exact not_or.2 ⟨fun h => hc h.symm, hline.single⟩

theorem areLines_lines (cs : List Char) : AreLines (lines cs) := by
  refine ⟨isLine_of_mem_lines, ?_⟩
  induction cs with
  | nil => exact .nil
  | cons c rest ih =>
    by_cases hc : c = '\n'
    · simp only [lines, hc, if_true]
      cases hl : lines rest with
      | nil => exact .singleton _
      | cons line more => exact List.isChain_cons_cons.2 ⟨rfl, hl ▸ ih⟩
    · rw [lines, if_neg hc]
      cases hl : lines rest with
      | nil => exact .singleton _
      | cons line more =>
        rw [hl] at ih
        cases more with
        | nil => exact .singleton _
        | cons next others =>
          obtain ⟨hline, hothers⟩ := List.isChain_cons_cons.1 ih
          refine List.isChain_cons_cons.2 ⟨?_, hothers⟩
          rw [List.getLast?_cons, hline, Option.getD_some]

/-! ### Entries and items written anew -/

/-- A text that starts at an indentation and ends its last line. -/
def StartsAt (indent : Nat) (text : List Char) : Prop :=
  ∃ c rest, text = spaces indent ++ c :: rest ∧ (c :: rest).getLast? = some '\n'

theorem StartsAt.ended {indent : Nat} {text : List Char} (h : StartsAt indent text) :
    text.getLast? = some '\n' := by
  obtain ⟨c, rest, rfl, hlast⟩ := h
  rw [List.getLast?_append, hlast, Option.some_or]

theorem getLast?_indentLine (width : Nat) (line : Line) :
    (indentLine width line).getLast? = some '\n' := by
  unfold indentLine
  split <;> simp

theorem getLast?_shift (first others : Nat) {text : List Char} (h : text ≠ []) :
    (shift first others text).getLast? = some '\n' := by
  unfold shift
  split
  · rename_i hnil
    have hflat := flatten_lines text
    rw [hnil] at hflat
    exact absurd hflat.symm h
  · rename_i line more _
    -- the end of the text is the end of its last line
    induction more using List.reverseRecOn with
    | nil => simpa using getLast?_indentLine first line
    | append_singleton more last _ =>
      rw [List.flatMap_append, List.flatMap_singleton, ← List.append_assoc, List.getLast?_append,
        getLast?_indentLine, Option.some_or]

theorem shift_cons (first others : Nat) {c : Char} (hc : c ≠ '\n') (rest : List Char) :
    ∃ more, shift first others (c :: rest) = spaces first ++ c :: more := by
  -- the first line is not blank, so it gets its indentation
  obtain ⟨line, tail, hlines⟩ : ∃ line tail, lines (c :: rest) = (c :: line) :: tail := by
    rw [lines, if_neg hc]
    split
    · exact ⟨[], [], rfl⟩
    · exact ⟨_, _, rfl⟩
  refine ⟨line.filter (· ≠ '\n') ++ ['\n'] ++ tail.flatMap (indentLine others), ?_⟩
  simp [shift, hlines, indentLine, hc]

theorem startsAt_freshEntryText {indent : Nat} {key value : Tree} {text : List Char}
    (h : freshEntryText? indent key value = some text) : StartsAt indent text := by
  unfold freshEntryText? at h
  split at h
  · rename_i written hwritten
    obtain rfl := Option.some.inj h
    obtain ⟨c, rest, hcons, hc⟩ := Tree.exists_cons_of_toYaml_mapping (by simp) hwritten
    rw [hcons]
    obtain ⟨more, hmore⟩ := shift_cons indent indent hc rest
    refine ⟨c, more, hmore, ?_⟩
    have hlast := getLast?_shift indent indent (List.cons_ne_nil c rest)
    rwa [hmore, List.getLast?_append_of_ne_nil _ (List.cons_ne_nil c more)] at hlast
  · cases h

theorem startsAt_freshItemText {indent : Nat} {value : Tree} {text : List Char}
    (h : freshItemText? indent value = some text) : StartsAt indent text := by
  unfold freshItemText? at h
  split at h
  · rename_i written hwritten
    obtain rfl := Option.some.inj h
    refine ⟨'-', ' ' :: shift 0 (indent + 2) written.toList, by simp, ?_⟩
    have hlast := getLast?_shift 0 (indent + 2)
      (Tree.toList_ne_nil_of_toYaml hwritten)
    rw [List.getLast?_cons_cons, List.getLast?_cons, hlast, Option.getD_some]
  · cases h

end OperatorBundle.Layout
