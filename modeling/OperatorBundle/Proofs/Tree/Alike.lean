import Mathlib.Data.Option.Basic
import OperatorBundle.Proofs.Patch.Spot

/-!
Trees that are alike: the same document, and without repeated keys. Trees that are alike have alike
nodes in the same places, and stay alike when alike values are put into them.
-/

namespace OperatorBundle.Tree

/-- Trees without repeated keys that are the same document. -/
structure Alike (a b : Tree) : Prop where
  left : a.uniqueKeys
  right : b.uniqueKeys
  same : a.same b

namespace Alike

variable {a b c : Tree}

theorem refl (h : a.uniqueKeys) : a.Alike a := ⟨h, h, same_self h⟩

theorem symm (h : a.Alike b) : b.Alike a := ⟨h.right, h.left, same_symm h.left h.right h.same⟩

theorem trans (hab : a.Alike b) (hbc : b.Alike c) : a.Alike c :=
  ⟨hab.left, hbc.right, same_trans hab.left hab.right hbc.right hab.same hbc.same⟩

theorem tagged (h : a.Alike b) (tag : String) : (Tree.tagged tag a).Alike (.tagged tag b) where
  left := uniqueKeys_tagged.symm ▸ h.left
  right := uniqueKeys_tagged.symm ▸ h.right
  same := by simp [Tree.same, h.same]

theorem sequence {as bs : List Tree} (h : List.Forall₂ Alike as bs) :
    (Tree.sequence as).Alike (.sequence bs) := by
  constructor
  case left =>
    rw [uniqueKeys_sequence]
    intro t ht
    obtain ⟨other, -, halike⟩ := exists_of_forall₂ h ht
    exact halike.left
  case right =>
    rw [uniqueKeys_sequence]
    intro t ht
    obtain ⟨other, -, halike⟩ := exists_of_forall₂ h.flip ht
    exact halike.right
  case same =>
    rw [Tree.same, sameItems_iff]
    exact h.imp fun _ _ halike => halike.same

theorem forall₂ {as bs : List Tree} (h : (Tree.sequence as).Alike (.sequence bs)) :
    List.Forall₂ Alike as bs := by
  obtain ⟨has, hbs, hsame⟩ := h
  rw [uniqueKeys_sequence] at has hbs
  rw [Tree.same, sameItems_iff] at hsame
  induction hsame with
  | nil => exact .nil
  | cons hfirst _ ih =>
    obtain ⟨ha, has⟩ := List.forall_mem_cons.1 has
    obtain ⟨hb, hbs⟩ := List.forall_mem_cons.1 hbs
    exact .cons ⟨ha, hb, hfirst⟩ (ih has hbs)

theorem content {tag : String} (h : (Tree.tagged tag a).Alike b) :
    ∃ c, b = .tagged tag c ∧ a.Alike c := by
  obtain ⟨ha, hb, hsame⟩ := h
  cases sameForm hsame with
  | tagged _ _ c h =>
    rw [uniqueKeys_tagged] at ha hb
    exact ⟨c, rfl, ha, hb, h⟩

end Alike

section Rel

variable {α β γ δ : Type} {r : α → β → Prop} {s : γ → δ → Prop} {x : Option α} {y : Option β}

theorem rel_bind {f : α → Option γ} {g : β → Option δ} (h : Option.Rel r x y)
    (hfg : ∀ a b, r a b → Option.Rel s (f a) (g b)) : Option.Rel s (x.bind f) (y.bind g) := by
  cases h with
  | none => exact .none
  | some h => exact hfg _ _ h

theorem bind_eq_of_rel {f : α → Option γ} {g : β → Option γ} (h : Option.Rel r x y)
    (hfg : ∀ a b, r a b → f a = g b) : x.bind f = y.bind g := by
  cases h with
  | none => rfl
  | some h => exact hfg _ _ h

end Rel

/-- A node with something else at a key repeats no key. -/
theorem uniqueKeys_withSpot {node : Tree} {name : String} {spot : Spot} (h : node.uniqueKeys)
    (hspot : ∀ value, spot = .holds value → value.uniqueKeys) :
    (node.withSpot name spot).uniqueKeys := by
  induction node using Tree.inductionOn with
  | tagged tag content ih =>
    rw [withSpot, uniqueKeys_tagged]
    exact ih (uniqueKeys_tagged ▸ h)
  | mapping entries =>
    cases spot with
    | nowhere | unkeyed => exact h
    | free => exact uniqueKeys_erase h
    | holds value => exact uniqueKeys_insert name h (hspot value rfl)
  | null | bool | int | float | text | sequence => exact h

/-! ### Alike mappings -/

namespace Alike

variable {as bs : List Entry} {name : String} {v w : Tree}

theorem exists_of_lookup? (h : (Tree.mapping as).Alike (.mapping bs))
    (hv : lookup? name as = some v) : ∃ w, lookup? name bs = some w ∧ v.Alike w := by
  obtain ⟨-, hpartner⟩ := exists_of_same_mapping h.same
  obtain ⟨pre, post, rfl, -⟩ := Tree.exists_of_lookup? hv
  obtain ⟨⟨key, w⟩, hmem, hkey, hsame⟩ := hpartner (.text name, v) (by simp)
  obtain rfl := text_same_iff.1 hkey
  have hleft := (uniqueKeys_mapping.1 h.left).2 (.text name, v) (by simp)
  obtain ⟨hdiffer, hright⟩ := uniqueKeys_mapping.1 h.right
  refine ⟨w, ?_, hleft.2, (hright _ hmem).2, hsame⟩
  obtain ⟨pre', post', rfl⟩ := List.append_of_mem hmem
  refine lookup?_append w post' ?_
  intro e he
  exact not_isName_of_keysDiffer hdiffer e (List.mem_append_left _ he)

theorem lookup? (h : (Tree.mapping as).Alike (.mapping bs)) (name : String) :
    Option.Rel Alike (Tree.lookup? name as) (Tree.lookup? name bs) := by
  cases ha : Tree.lookup? name as with
  | some v =>
    obtain ⟨w, hw, halike⟩ := h.exists_of_lookup? ha
    rw [hw]
    exact .some halike
  | none =>
    cases hb : Tree.lookup? name bs with
    | none => exact .none
    | some w =>
      obtain ⟨v, hv, -⟩ := h.symm.exists_of_lookup? hb
      rw [ha] at hv
      cases hv

/-- Alike values put under a key leave mappings alike. -/
theorem insert (h : (Tree.mapping as).Alike (.mapping bs)) (hvalue : v.Alike w) (name : String) :
    (Tree.mapping (insert name v as)).Alike (.mapping (Tree.insert name w bs)) := by
  have hleft := uniqueKeys_insert name h.left hvalue.left
  have hright := uniqueKeys_insert name h.right hvalue.right
  refine ⟨hleft, hright, ?_⟩
  obtain ⟨hlength, hpartner⟩ := exists_of_same_mapping h.same
  have hkey : (Tree.text name).same (.text name) := text_same_iff.2 rfl
  have hlookup := h.lookup? name
  cases ha : Tree.lookup? name as with
  | some old =>
    rw [ha] at hlookup
    cases hb : Tree.lookup? name bs with
    | none => rw [hb] at hlookup; cases hlookup
    | some old' =>
      obtain ⟨pre, post, rfl, hpre⟩ := Tree.exists_of_lookup? ha
      obtain ⟨pre', post', rfl, hpre'⟩ := Tree.exists_of_lookup? hb
      have hothers := not_isName_of_keysDiffer (uniqueKeys_mapping.1 h.left).1
      -- the like of an entry with another key is not the one that is changed
      have hkept : ∀ e ∈ pre ++ post, ∃ other ∈ pre' ++ (.text name, w) :: post',
          e.1.same other.1 ∧ e.2.same other.2 := by
        intro e he
        obtain ⟨other, hother, hsame⟩ := hpartner e (by
          simp only [List.mem_append, List.mem_cons] at he ⊢
          tauto)
        refine ⟨other, ?_, hsame⟩
        have hne : other ≠ (.text name, old') := by
          rintro rfl
          have hname := isName_iff.2 (same_text_iff.1 hsame.1)
          rw [hothers e he] at hname
          cases hname
        simp only [List.mem_append, List.mem_cons, hne, false_or] at hother ⊢
        tauto
      rw [insert_append old v post hpre] at hleft ⊢
      rw [insert_append old' w post' hpre'] at hright ⊢
      refine same_mapping hleft hright (by simpa using hlength) ?_
      intro e he
      simp only [List.mem_append, List.mem_cons] at he
      rcases he with he | rfl | he
      · exact hkept e (List.mem_append_left _ he)
      · exact ⟨(.text name, w), by simp, hkey, hvalue.same⟩
      · exact hkept e (List.mem_append_right _ he)
  | none =>
    rw [ha] at hlookup
    cases hb : Tree.lookup? name bs with
    | some old => rw [hb] at hlookup; cases hlookup
    | none =>
      rw [insert_of_none ha] at hleft ⊢
      rw [insert_of_none hb] at hright ⊢
      refine same_mapping hleft hright (by simpa using hlength) ?_
      intro e he
      rcases List.mem_append.1 he with he | he
      · obtain ⟨other, hother, hsame⟩ := hpartner e he
        exact ⟨other, List.mem_append_left _ hother, hsame⟩
      · obtain rfl := List.mem_singleton.1 he
        exact ⟨(.text name, w), by simp, hkey, hvalue.same⟩

/-! ### Alike nodes -/

variable {a b : Tree}

theorem field? (h : a.Alike b) (name : String) :
    Option.Rel Alike (a.field? name) (b.field? name) := by
  induction a using Tree.inductionOn generalizing b with
  | tagged tag content ih =>
    obtain ⟨other, rfl, hcontent⟩ := h.content
    rw [field?_tagged, field?_tagged]
    exact ih hcontent
  | mapping as =>
    cases sameForm h.same with
    | mapping _ bs _ => exact h.lookup? name
  | null | bool | int | float | text | sequence =>
    cases sameForm h.same
    exact .none

theorem text? (h : a.Alike b) : a.text? = b.text? := by
  induction a using Tree.inductionOn generalizing b with
  | tagged tag content ih =>
    obtain ⟨other, rfl, hcontent⟩ := h.content
    exact (ih hcontent : content.text? = other.text?)
  | null | bool | int | float | text | sequence | mapping =>
    cases sameForm h.same
    rfl

theorem items? (h : a.Alike b) : Option.Rel (List.Forall₂ Alike) a.items? b.items? := by
  induction a using Tree.inductionOn generalizing b with
  | tagged tag content ih =>
    obtain ⟨other, rfl, hcontent⟩ := h.content
    rw [items?_tagged, items?_tagged]
    exact ih hcontent
  | sequence as =>
    cases sameForm h.same with
    | sequence _ bs _ => exact .some h.forall₂
  | null | bool | int | float | text | mapping =>
    cases sameForm h.same
    exact .none

/-- A condition is met by both or neither. -/
theorem accepts (h : a.Alike b) (selector : Selector) :
    selector.accepts a = selector.accepts b := by
  unfold Selector.accepts
  rw [bind_eq_of_rel (h.field? selector.field) fun _ _ hfield => hfield.text?]

theorem find? {as bs : List Tree} (h : List.Forall₂ Alike as bs) (selector : Selector) :
    Option.Rel Alike (as.find? selector.accepts) (bs.find? selector.accepts) := by
  induction h with
  | nil => exact .none
  | cons hfirst _ ih =>
    rw [List.find?_cons, List.find?_cons, hfirst.accepts selector]
    split
    · exact .some hfirst
    · exact ih

theorem getElem? {as bs : List Tree} (h : List.Forall₂ Alike as bs) (position : Nat) :
    Option.Rel Alike as[position]? bs[position]? := by
  induction h generalizing position with
  | nil => exact .none
  | cons hfirst _ ih =>
    cases position with
    | zero => exact .some hfirst
    | succ position => exact ih position

theorem child? (h : a.Alike b) (segment : Segment) :
    Option.Rel Alike (a.child? segment) (b.child? segment) := by
  cases segment with
  | key name => exact h.field? name
  | index position => exact rel_bind h.items? fun _ _ hitems => getElem? hitems position
  | find selector => exact rel_bind h.items? fun _ _ hitems => find? hitems selector

theorem resolve? (h : a.Alike b) (path : List Segment) :
    Option.Rel Alike (a.resolve? path) (b.resolve? path) := by
  induction path generalizing a b with
  | nil =>
    rw [resolve?_nil, resolve?_nil]
    exact .some h
  | cons segment rest ih =>
    rw [resolve?_cons, resolve?_cons]
    exact rel_bind (h.child? segment) fun _ _ hchild => ih hchild

end Alike

/-! ### Nodes in their layers -/

variable {a b : Tree}

theorem uniqueKeys_of_around {layer : Layer} (h : (layer.around a).uniqueKeys) : a.uniqueKeys := by
  cases layer with
  | tag mark => exact uniqueKeys_tagged ▸ h
  | entry pre name post => exact ((uniqueKeys_mapping.1 h).2 (.text name, a) (by simp)).2
  | item pre post => exact uniqueKeys_sequence.1 h a (by simp)

/-- A node that is put in place of another under a key is one that is put under the key. -/
theorem insert_around {pre post : List Entry} {name : String}
    (h : (Layer.around (.entry pre name post) a).uniqueKeys) (b : Tree) :
    Tree.mapping (insert name b (pre ++ (.text name, a) :: post)) =
      Layer.around (.entry pre name post) b := by
  have hothers := not_isName_of_keysDiffer (uniqueKeys_mapping.1 h).1
  rw [insert_append a b post fun e he => hothers e (List.mem_append_left _ he)]
  rfl

theorem uniqueKeys_around {layer : Layer} (h : (layer.around a).uniqueKeys) (hb : b.uniqueKeys) :
    (layer.around b).uniqueKeys := by
  cases layer with
  | tag mark => exact uniqueKeys_tagged.symm ▸ hb
  | entry pre name post =>
    rw [← insert_around h b]
    exact uniqueKeys_insert name h hb
  | item pre post =>
    unfold Layer.around at h ⊢
    rw [uniqueKeys_sequence] at h ⊢
    simp only [List.mem_append, List.mem_cons] at h ⊢
    rintro t (ht | rfl | ht)
    · exact h t (.inl ht)
    · exact hb
    · exact h t (.inr (.inr ht))

theorem Alike.around {layer : Layer} (h : (layer.around a).uniqueKeys) (hba : b.Alike a) :
    (layer.around b).Alike (layer.around a) := by
  cases layer with
  | tag mark => exact hba.tagged mark
  | entry pre name post =>
    rw [← insert_around h b, ← insert_around h a]
    exact Alike.insert (.refl h) hba name
  | item pre post =>
    unfold Layer.around at h ⊢
    rw [uniqueKeys_sequence] at h
    simp only [List.mem_append, List.mem_cons] at h
    refine .sequence (List.rel_append ?_ (.cons hba ?_))
    · exact List.forall₂_same.2 fun t ht => .refl (h t (.inl ht))
    · exact List.forall₂_same.2 fun t ht => .refl (h t (.inr (.inr ht)))

theorem uniqueKeys_of_wrap {layers : List Layer} (h : (wrap layers a).uniqueKeys) :
    a.uniqueKeys := by
  induction layers with
  | nil => exact h
  | cons layer layers ih => exact ih (uniqueKeys_of_around h)

theorem uniqueKeys_wrap {layers : List Layer} (h : (wrap layers a).uniqueKeys)
    (hb : b.uniqueKeys) : (wrap layers b).uniqueKeys := by
  induction layers with
  | nil => exact hb
  | cons layer layers ih => exact uniqueKeys_around h (ih (uniqueKeys_of_around h))

/-- A node that gives way to one that is like it leaves a tree that is like the one before. -/
theorem Alike.wrap {layers : List Layer} (h : (Tree.wrap layers a).uniqueKeys) (hba : b.Alike a) :
    (Tree.wrap layers b).Alike (Tree.wrap layers a) := by
  induction layers with
  | nil => exact hba
  | cons layer layers ih => exact (ih (uniqueKeys_of_around h)).around h

end OperatorBundle.Tree
