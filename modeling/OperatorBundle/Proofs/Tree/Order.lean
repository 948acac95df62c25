import OperatorBundle.Proofs.Tree.Alike

/-!
Documents in their order. Equality of documents leaves the order of keys out; `sameInOrder` takes it
in, for every mapping at every depth. A key that is dropped and put back comes last, in a document
that is the same as before.
-/

namespace OperatorBundle.Tree

mutual
/-- Whether two trees are the same document, with the keys of each mapping in the same order. -/
def sameInOrder : Tree → Tree → Bool
  | .null, .null => true
  | .bool a, .bool b => a = b
  | .int a, .int b => a = b
  | .float a, .float b => a.same b
  | .text a, .text b => a = b
  | .sequence as, .sequence bs => sameItemsInOrder as bs
  | .mapping as, .mapping bs => sameEntriesInOrder as bs
  | .tagged s a, .tagged t b => s = t && a.sameInOrder b
  | _, _ => false

/-- Whether two lists of trees agree position by position. -/
def sameItemsInOrder : List Tree → List Tree → Bool
  | [], [] => true
  | a :: as, b :: bs => a.sameInOrder b && sameItemsInOrder as bs
  | _, _ => false

/-- Whether two lists of entries agree position by position. -/
def sameEntriesInOrder : List (Tree × Tree) → List (Tree × Tree) → Bool
  | [], [] => true
  | (key, value) :: more, (key', value') :: others =>
    key.sameInOrder key' && value.sameInOrder value' && sameEntriesInOrder more others
  | _, _ => false
end

theorem sameItemsInOrder_iff {as bs : List Tree} :
    sameItemsInOrder as bs ↔ List.Forall₂ (fun a b => a.sameInOrder b) as bs := by
  induction as generalizing bs with
  | nil => cases bs <;> simp [sameItemsInOrder]
  | cons a as ih =>
    cases bs with
    | nil => simp [sameItemsInOrder]
    | cons b bs => simp [sameItemsInOrder, ih]

theorem sameEntriesInOrder_iff {as bs : List Entry} :
    sameEntriesInOrder as bs ↔
      List.Forall₂ (fun a b : Entry => a.1.sameInOrder b.1 ∧ a.2.sameInOrder b.2) as bs := by
  induction as generalizing bs with
  | nil => cases bs <;> simp [sameEntriesInOrder]
  | cons a as ih =>
    cases bs with
    | nil => simp [sameEntriesInOrder]
    | cons b bs => simp [sameEntriesInOrder, ih]

/-- Documents that are the same in their order are the same. -/
theorem same_of_sameInOrder {a b : Tree} (ha : a.uniqueKeys) (hb : b.uniqueKeys)
    (h : a.sameInOrder b) : a.same b := by
  induction a using inductionOn generalizing b with
  | null | bool | int | float | text =>
    cases b with
    | null | bool | int | float | text => exact h
    | sequence | mapping | tagged => cases h
  | sequence as ih =>
    cases b with
    | sequence bs =>
      rw [sameInOrder, sameItemsInOrder_iff] at h
      rw [uniqueKeys_sequence] at ha hb
      rw [same, sameItems_iff]
      refine List.forall₂_iff_zip.2 ⟨h.length_eq, fun {x y} hmem => ?_⟩
      exact ih x (List.of_mem_zip hmem).1 (ha x (List.of_mem_zip hmem).1)
        (hb y (List.of_mem_zip hmem).2) ((List.forall₂_iff_zip.1 h).2 hmem)
    | null | bool | int | float | text | mapping | tagged => cases h
  | mapping as ih =>
    cases b with
    | mapping bs =>
      rw [sameInOrder, sameEntriesInOrder_iff] at h
      refine same_mapping ha hb h.length_eq fun e he => ?_
      obtain ⟨other, hother, hkey, hvalue⟩ := exists_of_forall₂ h he
      obtain ⟨hkeys, hvalues⟩ := (uniqueKeys_mapping.1 ha).2 e he
      obtain ⟨hkeys', hvalues'⟩ := (uniqueKeys_mapping.1 hb).2 other hother
      exact ⟨other, hother, (ih e he).1 hkeys hkeys' hkey, (ih e he).2 hvalues hvalues' hvalue⟩
    | null | bool | int | float | text | sequence | tagged => cases h
  | tagged tag content ih =>
    cases b with
    | tagged other inner =>
      rw [sameInOrder, Bool.and_eq_true] at h
      rw [same, Bool.and_eq_true]
      exact ⟨h.1, ih (uniqueKeys_tagged ▸ ha) (uniqueKeys_tagged ▸ hb) h.2⟩
    | null | bool | int | float | text | sequence | mapping => cases h

/-! ### A key that is put back -/

variable {entries others : List Entry} {name : String} {old value : Tree}

/-- A mapping does not depend on the order of its entries. -/
theorem alike_of_perm (hunique : (Tree.mapping entries).uniqueKeys)
    (hunique' : (Tree.mapping others).uniqueKeys) (h : entries.Perm others) :
    (Tree.mapping entries).Alike (.mapping others) := by
  refine ⟨hunique, hunique', same_mapping hunique hunique' h.length_eq fun e he => ?_⟩
  obtain ⟨hkey, hvalue⟩ := (uniqueKeys_mapping.1 hunique).2 e he
  exact ⟨e, h.mem_iff.1 he, same_self hkey, same_self hvalue⟩

/-- A key that is dropped and put back comes last. -/
theorem insert_erase (name : String) (value : Tree) (entries : List Entry) :
    insert name value (erase name entries) = erase name entries ++ [(.text name, value)] :=
  insert_of_none (lookup?_erase_self name entries) value

/-- A key that is dropped and put back with what it had is in the mapping as before. -/
theorem alike_insert_erase (hunique : (Tree.mapping entries).uniqueKeys)
    (hlookup : lookup? name entries = some old) (hvalue : value.Alike old) :
    (Tree.mapping (insert name value (erase name entries))).Alike (.mapping entries) := by
  have hinsert : (Tree.mapping (insert name value entries)).Alike (.mapping entries) := by
    have h := (Alike.refl hunique).insert hvalue name
    rwa [insert_self hlookup] at h
  refine Alike.trans (alike_of_perm ?_ hinsert.left ?_) hinsert
  · exact uniqueKeys_insert name (uniqueKeys_erase hunique) hvalue.left
  · obtain ⟨pre, post, rfl, hpre⟩ := exists_of_lookup? hlookup
    have hothers := not_isName_of_keysDiffer (uniqueKeys_mapping.1 hunique).1
    rw [insert_erase, erase_append hothers, insert_append old value post hpre, List.append_assoc]
    exact (List.perm_append_singleton _ post).append_left pre

end OperatorBundle.Tree
