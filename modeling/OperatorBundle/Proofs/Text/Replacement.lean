import Mathlib.Data.List.Infix
import OperatorBundle.Text.Search

/-!
Replacement of all occurrences of a text. They are taken from the left, each behind the one before.
If the first characters of the old text and of the new one do not occur in the other, no occurrence
of the old text starts in what is put in, and none reaches into it, so nothing is left to replace.

* `replaced_replaceAll`: what a replacement of all occurrences leaves.
* `occursIn_replaceAll`: when it leaves nothing to replace.
-/

namespace OperatorBundle.Text

variable {c d : Char} {old new : List Char}

/-- No occurrence starts in a text without the first character. -/
theorem occursIn_append_of_notMem {before : List Char} (h : c ∉ before) (rest : List Char) :
    occursIn (c :: old) (before ++ rest) = occursIn (c :: old) rest := by
  induction before with
  | nil => rfl
  | cons x before ih =>
    obtain ⟨hx, hbefore⟩ := List.ne_and_not_mem_of_not_mem_cons h
    have hprefix : (c :: old).isPrefixOf (x :: (before ++ rest)) = false := by
      simp [List.isPrefixOf, hx]
    rw [List.cons_append, occursIn, hprefix, Bool.false_or, ih hbefore]

/-- What a replacement starts with, if it has no part of what is put in, was there before. -/
theorem prefix_of_prefix_replaceAfter {needle : List Char} (hd : d ∉ needle) {text : List Char}
    (h : needle <+: replaceAfter old (d :: new) 0 text) : needle <+: text := by
  induction text generalizing needle with
  | nil => exact h
  | cons x rest ih =>
    cases needle with
    | nil => exact List.nil_prefix
    | cons y needle =>
      obtain ⟨hy, hneedle⟩ := List.ne_and_not_mem_of_not_mem_cons hd
      rw [replaceAfter] at h
      split_ifs at h
      · -- what is put in starts with another character
        exact absurd (List.cons_prefix_cons.1 h).1 (Ne.symm hy)
      · obtain ⟨rfl, hrest⟩ := List.cons_prefix_cons.1 h
        exact List.cons_prefix_cons.2 ⟨rfl, ih hneedle hrest⟩

/-- **Nothing is left to replace.** -/
theorem occursIn_replaceAfter (hc : c ∉ d :: new) (hd : d ∉ c :: old) (skip : Nat)
    (text : List Char) :
    occursIn (c :: old) (replaceAfter (c :: old) (d :: new) skip text) = false := by
  induction text generalizing skip with
  | nil => cases skip <;> rfl
  | cons x rest ih =>
    cases skip with
    | succ skip => exact ih skip
    | zero =>
      rw [replaceAfter]
      split_ifs with hprefix
      · rw [occursIn_append_of_notMem hc]
        exact ih _
      · -- an occurrence here would have been one before the replacement
        have hstart : (c :: old).isPrefixOf
            (x :: replaceAfter (c :: old) (d :: new) 0 rest) = false := by
          rw [Bool.eq_false_iff]
          intro h
          obtain ⟨rfl, htail⟩ := List.cons_prefix_cons.1 (List.isPrefixOf_iff_prefix.1 h)
          have hd' : d ∉ old := fun hmem => hd (List.mem_cons_of_mem _ hmem)
          have hbefore := prefix_of_prefix_replaceAfter hd' htail
          exact hprefix (List.isPrefixOf_iff_prefix.2 (List.cons_prefix_cons.2 ⟨rfl, hbefore⟩))
        rw [occursIn, hstart, Bool.false_or]
        exact ih 0

theorem occursIn_replaceAll (hc : c ∉ d :: new) (hd : d ∉ c :: old) (text : List Char) :
    occursIn (c :: old) (replaceAll (c :: old) (d :: new) text) = false :=
  occursIn_replaceAfter hc hd 0 text

/-! ### From the left -/

/-- A text with all occurrences of another replaced: up to the leftmost occurrence it stays, there
the new text stands, and behind it the replacement goes on. The empty text occurs before each
character and at the end. -/
inductive Replaced (old new : List Char) : List Char → List Char → Prop
  | nowhere {text : List Char} (h : occursIn old text = false) : Replaced old new text text
  | leftmost {before rest result : List Char} (hold : old ≠ [])
      (hfirst : ∀ i < before.length, ¬ old <+: (before ++ (old ++ rest)).drop i)
      (h : Replaced old new rest result) :
    Replaced old new (before ++ (old ++ rest)) (before ++ (new ++ result))
  | empty {text : List Char} (hold : old = []) :
    Replaced old new text (new ++ text.flatMap (· :: new))

variable {text : List Char}

/-- A text that occurs has a leftmost occurrence. -/
theorem exists_leftmost (h : occursIn old text) :
    ∃ before rest, text = before ++ (old ++ rest) ∧
      ∀ i < before.length, ¬ old <+: text.drop i := by
  induction text with
  | nil =>
    obtain rfl : old = [] := List.isEmpty_iff.1 h
    exact ⟨[], [], rfl, by simp⟩
  | cons x text ih =>
    by_cases hhere : old <+: x :: text
    · obtain ⟨rest, hrest⟩ := hhere
      exact ⟨[], rest, hrest.symm, by simp⟩
    · have hlater : occursIn old text := by
        rw [occursIn, Bool.or_eq_true, List.isPrefixOf_iff_prefix] at h
        exact h.resolve_left hhere
      obtain ⟨before, rest, rfl, hfirst⟩ := ih hlater
      refine ⟨x :: before, rest, rfl, fun i hi => ?_⟩
      cases i with
      | zero => exact hhere
      | succ i => exact hfirst i (Nat.lt_of_succ_lt_succ hi)

/-- Before the leftmost occurrence nothing is replaced. -/
theorem replaceAfter_append {before rest : List Char}
    (hfirst : ∀ i < before.length, ¬ old <+: (before ++ rest).drop i) :
    replaceAfter old new 0 (before ++ rest) = before ++ replaceAfter old new 0 rest := by
  induction before with
  | nil => rfl
  | cons x before ih =>
    have hhere : old.isPrefixOf (x :: (before ++ rest)) = false := by
      rw [Bool.eq_false_iff, ne_eq, List.isPrefixOf_iff_prefix]
      exact hfirst 0 (Nat.succ_pos _)
    have hmore := ih fun i hi => hfirst (i + 1) (Nat.succ_lt_succ hi)
    rw [List.cons_append, replaceAfter, if_neg (by simp [hhere]), hmore, List.cons_append]

/-- What belongs to the occurrence replaced last is left out. -/
theorem replaceAfter_length (skipped rest : List Char) :
    replaceAfter old new skipped.length (skipped ++ rest) = replaceAfter old new 0 rest := by
  induction skipped with
  | nil => rfl
  | cons x skipped ih => exact ih

/-- An occurrence gives way to the new text. -/
theorem replaceAfter_old (hold : old ≠ []) (rest : List Char) :
    replaceAfter old new 0 (old ++ rest) = new ++ replaceAfter old new 0 rest := by
  obtain ⟨x, more, rfl⟩ := List.exists_cons_of_ne_nil hold
  have hhere : (x :: more).isPrefixOf (x :: (more ++ rest)) :=
    List.isPrefixOf_iff_prefix.2 ⟨rest, rfl⟩
  rw [List.cons_append, replaceAfter, if_pos hhere]
  exact congrArg (new ++ ·) (replaceAfter_length more rest)

theorem replaced_replaceAfter (hold : old ≠ []) (text : List Char) :
    Replaced old new text (replaceAfter old new 0 text) := by
  induction hlength : text.length using Nat.strongRecOn generalizing text with
  | ind length ih =>
    by_cases hoccurs : occursIn old text
    · obtain ⟨before, rest, rfl, hfirst⟩ := exists_leftmost hoccurs
      rw [replaceAfter_append hfirst, replaceAfter_old hold]
      refine .leftmost hold hfirst (ih rest.length ?_ rest rfl)
      have hpos := List.length_pos_iff.2 hold
      simp only [List.length_append] at hlength
      omega
    · rw [Bool.not_eq_true] at hoccurs
      rw [replaceAfter_zero_of_not_occursIn new hoccurs]
      exact .nowhere hoccurs

/-- **The occurrences are replaced from the left**, each behind the one before. -/
theorem replaced_replaceAll (old new text : List Char) :
    Replaced old new text (replaceAll old new text) := by
  unfold replaceAll
  split_ifs with hempty
  · exact .empty (List.isEmpty_iff.1 hempty)
  · exact replaced_replaceAfter (by simpa using hempty) text

/-- What does not occur is not replaced. -/
theorem Replaced.eq_of_not_occursIn {result : List Char} (h : Replaced old new text result)
    (hnone : occursIn old text = false) : result = text := by
  cases h with
  | nowhere => rfl
  | @leftmost before rest result hold hfirst h =>
    have hoccurs : occursIn old (before ++ (old ++ rest)) := by
      clear hfirst hnone
      induction before with
      | nil => exact occursIn_of_isPrefixOf (List.isPrefixOf_iff_prefix.2 ⟨rest, rfl⟩)
      | cons x before ih => rw [List.cons_append, occursIn, ih, Bool.or_true]
    rw [hnone] at hoccurs
    cases hoccurs
  | empty hold =>
    subst hold
    cases text <;> simp [occursIn] at hnone

end OperatorBundle.Text
