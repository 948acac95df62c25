import OperatorBundle.Proofs.Tree.Sameness

/-!
Identity of trees is decidable. It is finer than equality of documents: the order of the entries of
a mapping counts.
-/

namespace OperatorBundle.Tree

mutual
/-- Whether two trees are identical. -/
def identical : Tree → Tree → Bool
  | .null, .null => true
  | .bool a, .bool b => a = b
  | .int a, .int b => a = b
  | .float a, .float b => a = b
  | .text a, .text b => a = b
  | .sequence as, .sequence bs => identicalItems as bs
  | .mapping as, .mapping bs => identicalEntries as bs
  | .tagged s a, .tagged t b => s = t && a.identical b
  | _, _ => false

/-- Whether two lists of trees are identical. -/
def identicalItems : List Tree → List Tree → Bool
  | [], [] => true
  | a :: as, b :: bs => a.identical b && identicalItems as bs
  | _, _ => false

/-- Whether two lists of entries are identical. -/
def identicalEntries : List (Tree × Tree) → List (Tree × Tree) → Bool
  | [], [] => true
  | (a, x) :: as, (b, y) :: bs => a.identical b && x.identical y && identicalEntries as bs
  | _, _ => false
end

theorem identicalItems_iff {as bs : List Tree} (h : ∀ a ∈ as, ∀ b, a.identical b ↔ a = b) :
    identicalItems as bs ↔ as = bs := by
  induction as generalizing bs with
  | nil => cases bs <;> simp [identicalItems]
  | cons a as ih =>
    obtain ⟨ha, has⟩ := List.forall_mem_cons.1 h
    cases bs with
    | nil => simp [identicalItems]
    | cons b bs => rw [identicalItems, Bool.and_eq_true, ha, ih has, List.cons.injEq]

theorem identicalEntries_iff {as bs : List Entry}
    (h : ∀ e ∈ as, (∀ b, e.1.identical b ↔ e.1 = b) ∧ ∀ b, e.2.identical b ↔ e.2 = b) :
    identicalEntries as bs ↔ as = bs := by
  induction as generalizing bs with
  | nil => cases bs <;> simp [identicalEntries]
  | cons e as ih =>
    obtain ⟨⟨hkey, hvalue⟩, has⟩ := List.forall_mem_cons.1 h
    cases bs with
    | nil => simp [identicalEntries]
    | cons e' bs =>
      rw [identicalEntries, Bool.and_eq_true, Bool.and_eq_true, hkey, hvalue, ih has,
        List.cons.injEq, Prod.ext_iff]

theorem identical_iff {a b : Tree} : a.identical b ↔ a = b := by
  induction a using inductionOn generalizing b with
  | null | bool | int | float | text => cases b <;> simp [identical]
  | sequence items ih =>
    cases b with
    | sequence others =>
      rw [identical, identicalItems_iff fun t ht b => ih t ht, Tree.sequence.injEq]
    | null | bool | int | float | text | mapping | tagged => simp [identical]
  | mapping entries ih =>
    cases b with
    | mapping others =>
      rw [identical, identicalEntries_iff fun e he => ⟨fun b => (ih e he).1, fun b => (ih e he).2⟩,
        Tree.mapping.injEq]
    | null | bool | int | float | text | sequence | tagged => simp [identical]
  | tagged tag content ih =>
    cases b with
    | tagged tag' content' => simp [identical, ih]
    | null | bool | int | float | text | sequence | mapping => simp [identical]

instance : DecidableEq Tree := fun _ _ => decidable_of_iff _ identical_iff

deriving instance DecidableEq for Except

end OperatorBundle.Tree
