import OperatorBundle.Proofs.Tree.Sameness

/-!
String keys among the entries of a mapping: where the entry with a key stands, what putting a value
under the key or dropping the key does there, and that it does nothing at other keys.
-/

namespace OperatorBundle.Tree

variable {name other : String} {entries pre post : List Entry} {value : Tree}

/-! ### The entry with a key -/

theorem text_same_iff {key : Tree} : (Tree.text name).same key ↔ key = .text name := by
  cases key <;> simp [same, eq_comm]

theorem same_text_iff {key : Tree} : key.same (.text name) ↔ key = .text name := by
  cases key <;> simp [same, eq_comm]

/-- An entry with a string key is the only one with it, if no two keys are equal. -/
theorem not_isName_of_keysDiffer (h : KeysDiffer (pre ++ (.text name, value) :: post)) :
    ∀ e ∈ pre ++ post, e.1.isName name = false := by
  obtain ⟨-, hpost, hboth⟩ := List.pairwise_append.1 h
  intro e he
  rw [Bool.eq_false_iff]
  intro hname
  have hkey : e.1 = .text name := isName_iff.1 hname
  have hdiffer : (Tree.text name).same e.1 = false ∨ e.1.same (.text name) = false := by
    rcases List.mem_append.1 he with he | he
    · exact .inl (hboth e he _ (List.mem_cons_self ..))
    · exact .inr ((List.pairwise_cons.1 hpost).1 e he)
  rw [hkey, text_same_iff.2 rfl] at hdiffer
  simp at hdiffer

theorem not_isName_of_lookup? (h : lookup? name entries = none) :
    ∀ e ∈ entries, e.1.isName name = false := by
  have hfind : entries.find? (fun e => e.1.isName name) = none := Option.map_eq_none_iff.1 h
  intro e he
  simpa using List.find?_eq_none.1 hfind e he

/-- A key that is found stands behind others. -/
theorem lookup?_append (value : Tree) (post : List Entry)
    (hpre : ∀ e ∈ pre, e.1.isName name = false) :
    lookup? name (pre ++ (.text name, value) :: post) = some value := by
  have hnone : pre.find? (fun e => e.1.isName name) = none :=
    List.find?_eq_none.2 fun e he => by simp [hpre e he]
  rw [lookup?, List.find?_append, hnone, Option.none_or, List.find?_cons_of_pos (by simp)]
  rfl

theorem exists_of_lookup? (h : lookup? name entries = some value) :
    ∃ pre post, entries = pre ++ (.text name, value) :: post ∧
      ∀ e ∈ pre, e.1.isName name = false := by
  obtain ⟨⟨key, found⟩, hfind, rfl⟩ := Option.map_eq_some_iff.1 h
  obtain ⟨hkey, pre, post, rfl, hpre⟩ := List.find?_eq_some_iff_append.1 hfind
  rw [isName_iff] at hkey
  obtain rfl : key = .text name := hkey
  exact ⟨pre, post, rfl, fun e he => by simpa using hpre e he⟩

/-! ### A value put under a key -/

theorem insert_append (old new : Tree) (post : List Entry)
    (hpre : ∀ e ∈ pre, e.1.isName name = false) :
    insert name new (pre ++ (.text name, old) :: post) = pre ++ (.text name, new) :: post := by
  induction pre with
  | nil => simp [insert]
  | cons e pre ih =>
    obtain ⟨he, hpre⟩ := List.forall_mem_cons.1 hpre
    rw [List.cons_append, insert, if_neg (by simp [he]), ih hpre]
    rfl

theorem insert_of_none (h : lookup? name entries = none) (value : Tree) :
    insert name value entries = entries ++ [(.text name, value)] := by
  have hothers := not_isName_of_lookup? h
  clear h
  induction entries with
  | nil => rfl
  | cons e more ih =>
    obtain ⟨he, hmore⟩ := List.forall_mem_cons.1 hothers
    rw [insert, if_neg (by simp [he]), ih hmore, List.cons_append]

theorem insert_self (h : lookup? name entries = some value) :
    insert name value entries = entries := by
  obtain ⟨pre, post, rfl, hpre⟩ := exists_of_lookup? h
  exact insert_append value value post hpre

/-- A value put under a key is not seen at other keys. -/
theorem lookup?_insert_of_ne (h : other ≠ name) (value : Tree) (entries : List Entry) :
    lookup? other (insert name value entries) = lookup? other entries := by
  induction entries with
  | nil => simp [insert, lookup?, Ne.symm h]
  | cons e more ih =>
    rw [insert]
    split_ifs with hname
    · have hkey : e.1.isName other = false := by
        rw [isName_iff.1 hname]
        simpa using Ne.symm h
      simp [lookup?, hkey]
    · unfold lookup? at ih ⊢
      rw [List.find?_cons, List.find?_cons]
      cases e.1.isName other with
      | true => rfl
      | false => exact ih

/-- Nor is one that stands in place of another. -/
theorem lookup?_of_ne (h : other ≠ name) (pre post : List Entry) (old new : Tree) :
    lookup? other (pre ++ (.text name, new) :: post) =
      lookup? other (pre ++ (.text name, old) :: post) := by
  have hname : (Tree.text name).isName other = false := by simpa using Ne.symm h
  unfold lookup?
  rw [List.find?_append, List.find?_append, List.find?_cons, List.find?_cons]
  simp only [hname]

/-! ### A key dropped -/

theorem erase_self (h : lookup? name entries = none) : erase name entries = entries :=
  List.filter_eq_self.2 fun e he => by simp [not_isName_of_lookup? h e he]

theorem erase_append (hothers : ∀ e ∈ pre ++ post, e.1.isName name = false) :
    erase name (pre ++ (.text name, value) :: post) = pre ++ post := by
  unfold erase
  rw [List.filter_append, List.filter_cons_of_neg (by simp), ← List.filter_append]
  exact List.filter_eq_self.2 fun e he => by simp [hothers e he]

theorem lookup?_erase_of_ne (h : other ≠ name) (entries : List Entry) :
    lookup? other (erase name entries) = lookup? other entries := by
  unfold lookup? erase
  rw [List.find?_filter]
  congr 1
  refine congrArg (fun p => entries.find? p) (funext fun e => ?_)
  by_cases hother : e.1.isName other
  · have hname : e.1.isName name = false := by
      rw [isName_iff.1 hother]
      simpa using h
    simp [hother, hname]
  · simp [hother]

/-! ### Keys that differ -/

theorem keysDiffer_iff :
    KeysDiffer entries ↔ (entries.map Prod.fst).Pairwise fun earlier later =>
      later.same earlier = false := by
  rw [KeysDiffer, List.pairwise_map]

theorem keysDiffer_insert (name : String) (value : Tree) (h : KeysDiffer entries) :
    KeysDiffer (insert name value entries) := by
  cases hlookup : lookup? name entries with
  | some old =>
    obtain ⟨pre, post, rfl, hpre⟩ := exists_of_lookup? hlookup
    -- the keys are those there were
    rw [insert_append old value post hpre]
    rw [keysDiffer_iff] at h ⊢
    simpa using h
  | none =>
    rw [insert_of_none hlookup]
    refine List.pairwise_append.2 ⟨h, List.pairwise_singleton .., ?_⟩
    intro e he last hlast
    obtain rfl := List.mem_singleton.1 hlast
    have hname := not_isName_of_lookup? hlookup e he
    rw [Bool.eq_false_iff] at hname ⊢
    exact fun hsame => hname (isName_iff.2 (text_same_iff.1 hsame))

theorem mem_insert {e : Entry} (h : e ∈ insert name value entries) :
    e = (.text name, value) ∨ e ∈ entries := by
  induction entries with
  | nil => exact .inl (List.mem_singleton.1 h)
  | cons first more ih =>
    rw [insert] at h
    split_ifs at h with hname
    · rw [isName_iff.1 hname] at h
      exact (List.mem_cons.1 h).imp_right (List.mem_cons_of_mem _)
    · rcases List.mem_cons.1 h with rfl | hmore
      · exact .inr (List.mem_cons_self ..)
      · exact (ih hmore).imp_right (List.mem_cons_of_mem _)

/-- A value put under a string key repeats no key. -/
theorem uniqueKeys_insert (name : String) (h : (Tree.mapping entries).uniqueKeys)
    (hvalue : value.uniqueKeys) : (Tree.mapping (insert name value entries)).uniqueKeys := by
  obtain ⟨hdiffer, hunique⟩ := uniqueKeys_mapping.1 h
  refine uniqueKeys_mapping.2 ⟨keysDiffer_insert name value hdiffer, ?_⟩
  intro e he
  rcases mem_insert he with rfl | he
  · exact ⟨uniqueKeys_text name, hvalue⟩
  · exact hunique e he

theorem uniqueKeys_erase (h : (Tree.mapping entries).uniqueKeys) :
    (Tree.mapping (erase name entries)).uniqueKeys := by
  obtain ⟨hdiffer, hunique⟩ := uniqueKeys_mapping.1 h
  refine uniqueKeys_mapping.2 ⟨hdiffer.sublist List.filter_sublist, ?_⟩
  intro e he
  exact hunique e (List.mem_of_mem_filter he)

end OperatorBundle.Tree
