import OperatorBundle.Proofs.Patch.Spot

/-!
Items that get values by their names. The name of an item is never written to, so an item that has
got its value gets the same value again, and nothing else.
-/

namespace OperatorBundle

open OperatorBundle.Text

namespace Tree

variable {keyField valueField : String} {values : List (String × String)} {item : Tree}
  {name value : String}

/-- A field is put into a node that has fields. -/
theorem changeEntries_insert {node found : Tree} {field : String}
    (h : node.field? field = some found) (name : String) (value : Tree) :
    node.changeEntries (insert name value) = .ok (node.withSpot name (.holds value)) := by
  induction node using Tree.inductionOn with
  | tagged tag content ih => rw [changeEntries, ih h]; rfl
  | mapping => rfl
  | null | bool | int | float | text | sequence => cases h

theorem field?_withSpot_self {node found : Tree} {field : String}
    (h : node.field? field = some found) (name : String) (value : Tree) :
    (node.withSpot name (.holds value)).field? name = some value := by
  induction node using Tree.inductionOn with
  | tagged tag content ih => exact ih h
  | mapping entries => exact lookup?_insert_self name value entries
  | null | bool | int | float | text | sequence => cases h

/-- The name of an item. -/
def nameAt? (keyField : String) (item : Tree) : Option String :=
  (item.field? keyField).bind text?

/-- An item whose name has a value gets it. -/
theorem withNamedValue_of_lookup (hname : item.nameAt? keyField = some name)
    (hvalue : values.lookup name = some value) :
    item.withNamedValue keyField valueField values =
      item.withSpot valueField (.holds (.text value)) := by
  obtain ⟨found, hfound, htext⟩ := Option.bind_eq_some_iff.1 hname
  unfold withNamedValue
  rw [hfound, Option.bind_some, htext, Option.bind_some, hvalue]
  simp only [changeEntries_insert hfound]

/-- An item whose name has no value stays. -/
theorem withNamedValue_of_none
    (h : ((item.nameAt? keyField).bind fun name => values.lookup name) = none) :
    item.withNamedValue keyField valueField values = item := by
  unfold nameAt? at h
  unfold withNamedValue
  rw [h]

/-- How an item ends. -/
theorem withNamedValue_cases (keyField valueField : String) (values : List (String × String))
    (item : Tree) :
    (∃ name value, item.nameAt? keyField = some name ∧ values.lookup name = some value) ∨
      item.withNamedValue keyField valueField values = item := by
  cases h : (item.nameAt? keyField).bind fun name => values.lookup name with
  | none => exact .inr (withNamedValue_of_none h)
  | some value =>
    obtain ⟨name, hname, hvalue⟩ := Option.bind_eq_some_iff.1 h
    exact .inl ⟨name, value, hname, hvalue⟩

/-- The name of an item stays. -/
theorem nameAt?_withNamedValue (h : keyField ≠ valueField) :
    (item.withNamedValue keyField valueField values).nameAt? keyField = item.nameAt? keyField := by
  rcases withNamedValue_cases keyField valueField values item with ⟨name, value, hname, hvalue⟩ | h'
  · rw [withNamedValue_of_lookup hname hvalue, nameAt?,
      (agreeOff_withSpot item valueField _).field? h, nameAt?]
  · rw [h']

/-- An item whose name has a value has it in the end. -/
theorem field?_withNamedValue (h : keyField ≠ valueField)
    (hname : (item.withNamedValue keyField valueField values).nameAt? keyField = some name)
    (hvalue : values.lookup name = some value) :
    (item.withNamedValue keyField valueField values).field? valueField = some (.text value) := by
  rw [nameAt?_withNamedValue h] at hname
  obtain ⟨found, hfound, -⟩ := Option.bind_eq_some_iff.1 hname
  rw [withNamedValue_of_lookup hname hvalue]
  exact field?_withSpot_self hfound valueField (.text value)

/-- An item that has its value stays. -/
theorem withNamedValue_of_field? (hname : item.nameAt? keyField = some name)
    (hvalue : values.lookup name = some value) (h : item.field? valueField = some (.text value)) :
    item.withNamedValue keyField valueField values = item := by
  rw [withNamedValue_of_lookup hname hvalue]
  have hspot : item.spotAt valueField = .holds (.text value) := by
    rw [← value?_spotAt] at h
    cases hspot : item.spotAt valueField with
    | nowhere | unkeyed | free => rw [hspot] at h; cases h
    | holds found => rw [hspot] at h; rw [Option.some.inj h]
  rw [← hspot]
  exact withSpot_self item valueField

/-- Getting values again changes nothing. -/
theorem withNamedValue_withNamedValue (h : keyField ≠ valueField) :
    (item.withNamedValue keyField valueField values).withNamedValue keyField valueField values =
      item.withNamedValue keyField valueField values := by
  rcases withNamedValue_cases keyField valueField values item with ⟨name, value, hname, hvalue⟩ | h'
  · have hkept : (item.withNamedValue keyField valueField values).nameAt? keyField = some name := by
      rw [nameAt?_withNamedValue h, hname]
    exact withNamedValue_of_field? hkept hvalue (field?_withNamedValue h hkept hvalue)
  · rw [h', h']

end Tree

end OperatorBundle
