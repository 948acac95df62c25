import Mathlib.Data.List.TakeWhile
import OperatorBundle.Text.Blank

/-!
Trimming: the text that is left and the blanks around it make up the text, and what is left neither
starts nor ends in a blank.

* `trimLeft_eq`, `trimRight_eq`: what is left when blanks are trimmed off one end.
* `exists_blanks`, `trim_append`: the same for both ends.
-/

namespace OperatorBundle.Text

/-- What is trimmed off the left are the blanks before the first other character. -/
theorem trimLeft_eq {text rest : List Char} :
    trimLeft text = rest ↔
      ∃ gap, text = gap ++ rest ∧ (∀ c ∈ gap, isBlank c) ∧
        ∀ c, rest.head? = some c → isBlank c = false := by
  constructor
  · rintro rfl
    refine ⟨text.takeWhile isBlank, ?_, fun c => List.mem_takeWhile_imp, fun c hc => ?_⟩
    · rw [trimLeft, List.takeWhile_append_dropWhile]
    · have hhead := List.head?_dropWhile_not isBlank text
      rw [show (text.dropWhile isBlank).head? = some c from hc] at hhead
      exact hhead
  · rintro ⟨gap, rfl, hgap, hrest⟩
    rw [trimLeft, List.dropWhile_append_of_pos hgap]
    cases rest with
    | nil => rfl
    | cons c rest => rw [List.dropWhile_cons_of_neg (by simp [hrest c rfl])]

/-- What is trimmed off the right are the blanks behind the last other character. -/
theorem trimRight_eq {text trimmed : List Char} :
    trimRight text = trimmed ↔
      ∃ gap, text = trimmed ++ gap ∧ (∀ c ∈ gap, isBlank c) ∧
        ∀ c, trimmed.getLast? = some c → isBlank c = false := by
  have hreverse : trimRight text = trimmed ↔ trimLeft text.reverse = trimmed.reverse :=
    List.reverse_eq_iff
  rw [hreverse, trimLeft_eq]
  constructor
  · rintro ⟨gap, htext, hgap, hlast⟩
    refine ⟨gap.reverse, ?_, fun c hc => hgap c (List.mem_reverse.1 hc), by simpa using hlast⟩
    rw [← List.reverse_reverse text, htext, List.reverse_append, List.reverse_reverse]
  · rintro ⟨gap, rfl, hgap, hlast⟩
    refine ⟨gap.reverse, List.reverse_append, ?_, by simpa using hlast⟩
    intro c hc
    exact hgap c (List.mem_reverse.1 hc)

/-- What is trimmed off is blank. -/
theorem exists_blanks (cs : List Char) :
    ∃ before after, cs = before ++ trim cs ++ after ∧ (∀ c ∈ before, isBlank c) ∧
      ∀ c ∈ after, isBlank c := by
  obtain ⟨before, hcs, hbefore, -⟩ := trimLeft_eq.1 (rfl : trimLeft cs = _)
  obtain ⟨after, hleft, hafter, -⟩ := trimRight_eq.1 (rfl : trimRight (trimLeft cs) = _)
  refine ⟨before, after, ?_, hbefore, hafter⟩
  rw [List.append_assoc, trim, ← hleft, ← hcs]

/-- Blanks around a text without blanks at its ends are trimmed off. -/
theorem trim_append {before cs after : List Char} (hbefore : ∀ c ∈ before, isBlank c)
    (hafter : ∀ c ∈ after, isBlank c) (hcs : cs ≠ []) (hfirst : ∀ c ∈ cs.head?, isBlank c = false)
    (hlast : ∀ c ∈ cs.getLast?, isBlank c = false) : trim (before ++ cs ++ after) = cs := by
  obtain ⟨c, rest, rfl⟩ := List.exists_cons_of_ne_nil hcs
  have hleft : trimLeft (before ++ (c :: rest) ++ after) = c :: rest ++ after :=
    trimLeft_eq.2 ⟨before, List.append_assoc .., hbefore, hfirst⟩
  rw [trim, hleft]
  exact trimRight_eq.2 ⟨after, rfl, hafter, hlast⟩

end OperatorBundle.Text
