import OperatorBundle.Proofs.Locator.Path
import OperatorBundle.Proofs.Patch.Alike
import OperatorBundle.Proofs.Tree.Order

/-!
Slots: what stands one step below a node, and the node with something else there. The slots of a
node are independent of each other: what is put into one is not seen in another, and in which order
two of them are filled matters for the order of keys only.

* `slot_withSlot_of_ne`: other slots are left alone.
* `alike_withSlot_comm`: two slots may be filled in either order.
-/

namespace OperatorBundle

/-- What may take the place of something without making or dropping a value. -/
def Spot.Keeps (old new : Spot) : Prop :=
  new = old ∨ ∃ v w, old = .holds v ∧ new = .holds w

namespace Tree

variable {name other : String} {entries : List Entry} {v w : Tree} {x y : Spot}

/-! ### Entries in either order -/

theorem perm_insert (h : KeysDiffer entries) (name : String) (value : Tree) :
    (insert name value entries).Perm ((.text name, value) :: erase name entries) := by
  cases hlookup : lookup? name entries with
  | some old =>
    obtain ⟨pre, post, rfl, hpre⟩ := exists_of_lookup? hlookup
    rw [insert_append old value post hpre, erase_append (not_isName_of_keysDiffer h)]
    exact List.perm_middle
  | none =>
    rw [insert_of_none hlookup, erase_self hlookup]
    exact List.perm_append_singleton _ entries

theorem erase_cons_of_ne (hne : name ≠ other) (value : Tree) (entries : List Entry) :
    erase name ((.text other, value) :: entries) = (.text other, value) :: erase name entries :=
  List.filter_cons_of_pos (by simpa using hne.symm)

theorem erase_comm (name other : String) (entries : List Entry) :
    erase name (erase other entries) = erase other (erase name entries) :=
  List.filter_comm ..

/-- A key that is dropped beside one that is put. -/
theorem perm_erase_insert (h : KeysDiffer entries) (hne : name ≠ other) (value : Tree) :
    (erase name (insert other value entries)).Perm
      ((.text other, value) :: erase name (erase other entries)) := by
  rw [← erase_cons_of_ne hne]
  exact (perm_insert h other value).filter _

theorem perm_insert_erase (h : KeysDiffer entries) (hne : name ≠ other) (value : Tree) :
    (insert other value (erase name entries)).Perm (erase name (insert other value entries)) := by
  have hfirst : (insert other value (erase name entries)).Perm
      ((.text other, value) :: erase other (erase name entries)) :=
    perm_insert (h.sublist List.filter_sublist) other value
  rw [erase_comm] at hfirst
  exact hfirst.trans (perm_erase_insert h hne value).symm

/-- Two keys that are put. -/
theorem perm_insert_insert (h : KeysDiffer entries) (hne : name ≠ other) (v w : Tree) :
    (insert name v (insert other w entries)).Perm (insert other w (insert name v entries)) := by
  have hboth {name other : String} (hne : name ≠ other) (v w : Tree) :
      (insert name v (insert other w entries)).Perm
        ((.text name, v) :: (.text other, w) :: erase name (erase other entries)) :=
    (perm_insert (keysDiffer_insert other w h) name v).trans
      ((perm_erase_insert h hne w).cons _)
  refine (hboth hne v w).trans ((List.Perm.swap ..).trans ?_)
  rw [erase_comm]
  exact (hboth hne.symm w v).symm

/-- What a key has is not seen once the key is dropped, or has another value. -/
theorem insert_insert (name : String) (v w : Tree) (entries : List Entry) :
    insert name v (insert name w entries) = insert name v entries := by
  induction entries with
  | nil => simp [insert]
  | cons e more ih =>
    by_cases hname : e.1.isName name
    · simp [insert, hname]
    · simp [insert, hname, ih]

/-- Mappings that are alike stay so without a key. -/
theorem Alike.erase {as bs : List Entry} (h : (Tree.mapping as).Alike (.mapping bs))
    (name : String) : (Tree.mapping (erase name as)).Alike (.mapping (Tree.erase name bs)) := by
  have hleft : (Tree.mapping (Tree.erase name as)).uniqueKeys := uniqueKeys_erase h.left
  have hright : (Tree.mapping (Tree.erase name bs)).uniqueKeys := uniqueKeys_erase h.right
  obtain ⟨hlength, hpartner⟩ := exists_of_same_mapping h.same
  have hlookup := h.lookup? name
  refine ⟨hleft, hright, same_mapping hleft hright ?_ fun e he => ?_⟩
  · -- both mappings have the key, or neither has it
    cases ha : Tree.lookup? name as with
    | none =>
      rw [ha] at hlookup
      cases hb : Tree.lookup? name bs with
      | none => rw [erase_self ha, erase_self hb, hlength]
      | some w => rw [hb] at hlookup; cases hlookup
    | some v =>
      rw [ha] at hlookup
      cases hb : Tree.lookup? name bs with
      | none => rw [hb] at hlookup; cases hlookup
      | some w =>
        have has := (perm_insert (uniqueKeys_mapping.1 h.left).1 name v).length_eq
        have hbs := (perm_insert (uniqueKeys_mapping.1 h.right).1 name w).length_eq
        rw [insert_self ha] at has
        rw [insert_self hb] at hbs
        simp only [List.length_cons] at has hbs
        omega
  · obtain ⟨hmem, hname⟩ := List.mem_filter.1 he
    obtain ⟨partner, hpartner, hsame⟩ := hpartner e hmem
    refine ⟨partner, List.mem_filter.2 ⟨hpartner, ?_⟩, hsame⟩
    rw [Bool.not_eq_true', Bool.eq_false_iff] at hname ⊢
    intro hother
    rw [isName_iff.1 hother] at hsame
    exact hname (isName_iff.2 (same_text_iff.1 hsame.1))

/-! ### Slots -/

/-- A node with something else at a position. Positions beyond the end stay without an item. -/
def withItem (position : Nat) (spot : Spot) : Tree → Tree
  | .tagged tag content => .tagged tag (withItem position spot content)
  | .sequence items =>
    match spot with
    | .holds value => .sequence (items.set position value)
    | .nowhere | .unkeyed | .free => .sequence items
  | tree => tree

/-- What an item is as what stands at a position. -/
def itemSpot : Option Tree → Spot
  | some item => .holds item
  | none => .nowhere

/-- What stands one step below a node. -/
def slot (node : Tree) : Step → Spot
  | .key name => node.spotAt name
  | .index position => itemSpot (node.child? (.index position))

/-- A node with something else one step below. -/
def withSlot (node : Tree) (step : Step) (spot : Spot) : Tree :=
  match step with
  | .key name => node.withSpot name spot
  | .index position => node.withItem position spot

variable {node : Tree} {step next : Step}

@[simp] theorem slot_tagged (tag : String) (content : Tree) (step : Step) :
    (Tree.tagged tag content).slot step = content.slot step := by
  cases step <;> rfl

@[simp] theorem withSlot_tagged (tag : String) (content : Tree) (step : Step) (spot : Spot) :
    (Tree.tagged tag content).withSlot step spot = .tagged tag (content.withSlot step spot) := by
  cases step <;> rfl

theorem value?_slot (node : Tree) (step : Step) :
    (node.slot step).value? = node.child? step.segment := by
  cases step with
  | key name => exact value?_spotAt node name
  | index position =>
    show (itemSpot (node.child? (.index position))).value? = node.child? (.index position)
    cases node.child? (.index position) <;> rfl

theorem slot_sequence (items : List Tree) (position : Nat) :
    (Tree.sequence items).slot (.index position) = itemSpot items[position]? := rfl

/-- Nothing changes where the same is put again. -/
theorem withSlot_slot (node : Tree) (step : Step) : node.withSlot step (node.slot step) = node := by
  cases step with
  | key name => exact withSpot_self node name
  | index position =>
    induction node using Tree.inductionOn with
    | tagged tag content ih => rw [slot_tagged, withSlot_tagged, ih]
    | sequence items =>
      rw [slot_sequence]
      cases hget : items[position]? with
      | none => rfl
      | some item =>
        obtain ⟨hlt, rfl⟩ := List.getElem?_eq_some_iff.1 hget
        exact congrArg Tree.sequence (List.set_getElem_self hlt)
    | null | bool | int | float | text | mapping => rfl

/-- A value in place of another is there. -/
theorem slot_withSlot (h : node.slot step = .holds v) (w : Tree) :
    (node.withSlot step (.holds w)).slot step = .holds w := by
  cases step with
  | key name =>
    have hset : (Action.set w).onSpot (node.spotAt name) = .ok (.holds w) := by
      rw [show node.spotAt name = .holds v from h]
      rfl
    exact spotAt_withSpot hset
  | index position =>
    induction node using Tree.inductionOn with
    | tagged tag content ih =>
      rw [slot_tagged] at h
      rw [withSlot_tagged, slot_tagged, ih h]
    | sequence items =>
      rw [slot_sequence] at h
      cases hget : items[position]? with
      | none => rw [hget] at h; cases h
      | some item =>
        obtain ⟨hlt, -⟩ := List.getElem?_eq_some_iff.1 hget
        show (Tree.sequence (items.set position w)).slot (.index position) = _
        rw [slot_sequence, List.getElem?_set_self hlt, itemSpot]
    | null | bool | int | float | text | mapping => cases h

/-- Of two values put in one place the second stays. -/
theorem withSlot_withSlot (node : Tree) (step : Step) (v w : Tree) :
    (node.withSlot step (.holds v)).withSlot step (.holds w) = node.withSlot step (.holds w) := by
  induction node using Tree.inductionOn with
  | tagged tag content ih => rw [withSlot_tagged, withSlot_tagged, withSlot_tagged, ih]
  | mapping entries =>
    cases step with
    | key name => exact congrArg Tree.mapping (insert_insert name w v entries)
    | index => rfl
  | sequence items =>
    cases step with
    | key => rfl
    | index position => exact congrArg Tree.sequence (List.set_set ..)
  | null | bool | int | float | text => cases step <;> rfl

theorem slot_withSlot_of_keeps (h : (node.slot step).Keeps x) :
    (node.withSlot step x).slot step = x := by
  rcases h with rfl | ⟨v, w, hold, rfl⟩
  · rw [withSlot_slot]
  · exact slot_withSlot hold w

theorem withSlot_withSlot_of_keeps (hx : (node.slot step).Keeps x) (hy : x.Keeps y) :
    (node.withSlot step x).withSlot step y = node.withSlot step y := by
  rcases hx with rfl | ⟨v, w, -, rfl⟩
  · rw [withSlot_slot]
  · rcases hy with rfl | ⟨-, u, -, rfl⟩
    · exact withSlot_withSlot node step w w
    · exact withSlot_withSlot node step w u

/-- **What is put into one slot is not seen in another.** -/
theorem slot_withSlot_of_ne (hne : next ≠ step) (node : Tree) (x : Spot) :
    (node.withSlot step x).slot next = node.slot next := by
  induction node using Tree.inductionOn with
  | tagged tag content ih => rw [withSlot_tagged, slot_tagged, slot_tagged, ih]
  | mapping entries =>
    cases step with
    | key name =>
      cases next with
      | key other => exact agreeOff_withSpot (.mapping entries) name x other (by simpa using hne)
      | index => cases x <;> rfl
    | index => rfl
  | sequence items =>
    cases step with
    | key => rfl
    | index position =>
      cases next with
      | key => cases x <;> rfl
      | index other =>
        have hpositions : position ≠ other := fun h => hne (h ▸ rfl)
        cases x with
        | holds value =>
          show (Tree.sequence (items.set position value)).slot (.index other) = _
          rw [slot_sequence, slot_sequence, List.getElem?_set_ne hpositions]
        | nowhere | unkeyed | free => rfl
  | null | bool | int | float | text => cases step <;> rfl

/-- A value that is changed in place. -/
theorem changeChild_of_slot {ε : Type} {f : Tree → Except ε Tree} {missing : ε}
    (h : node.slot step = .holds v) :
    node.changeChild f missing step.segment =
      (f v).map fun changed => node.withSlot step (.holds changed) := by
  have hchild : node.child? step.segment = some v := by rw [← value?_slot, h, Spot.value?]
  clear h
  induction node using Tree.inductionOn with
  | tagged tag content ih =>
    rw [child?_tagged] at hchild
    rw [changeChild, ih hchild]
    cases f v <;> simp [Except.map]
  | mapping entries =>
    cases step with
    | key name =>
      obtain ⟨pre, post, rfl, hpre⟩ := exists_of_lookup? hchild
      rw [Step.segment, changeChild_mapping v post hpre]
      refine congrArg (fun g => (f v).map g) (funext fun changed => ?_)
      exact congrArg Tree.mapping (insert_append v changed post hpre).symm
    | index => cases hchild
  | sequence items =>
    cases step with
    | key => cases hchild
    | index position =>
      obtain ⟨_, _, _, hkey, -⟩ | ⟨pre, post, hitems, hpicks⟩ := exists_of_child? hchild
      · cases hkey
      obtain rfl := Option.some.inj hitems
      rw [changeChild_sequence post hpicks]
      refine congrArg (fun g => (f v).map g) (funext fun changed => ?_)
      obtain rfl : position = pre.length := hpicks
      show Tree.sequence _ = .sequence ((pre ++ v :: post).set pre.length changed)
      rw [List.set_append_right _ _ (Nat.le_refl _), Nat.sub_self, List.set_cons_zero]
  | null | bool | int | float | text => cases step <;> cases hchild

/-! ### Alike nodes -/

namespace Alike

variable {a b : Tree}

theorem slot (h : a.Alike b) (step : Step) : (a.slot step).Alike (b.slot step) := by
  cases step with
  | key name => exact h.spotAt name
  | index position =>
    have hchild := h.child? (.index position)
    show (itemSpot (a.child? (.index position))).Alike (itemSpot (b.child? (.index position)))
    revert hchild
    generalize a.child? (.index position) = v
    generalize b.child? (.index position) = w
    rintro (hitem | _)
    · exact .holds hitem
    · exact .nowhere

theorem set {as bs : List Tree} (h : List.Forall₂ Alike as bs) (hvalue : v.Alike w)
    (position : Nat) : List.Forall₂ Alike (as.set position v) (bs.set position w) := by
  induction h generalizing position with
  | nil => exact .nil
  | cons hfirst hrest ih =>
    cases position with
    | zero => exact .cons hvalue hrest
    | succ position => exact .cons hfirst (ih position)

/-- The like put into alike nodes leaves alike nodes. -/
theorem withSlot (h : a.Alike b) (hxy : x.Alike y) (step : Step) :
    (a.withSlot step x).Alike (b.withSlot step y) := by
  induction a using Tree.inductionOn generalizing b with
  | tagged tag content ih =>
    obtain ⟨content', rfl, hcontent⟩ := h.content
    rw [withSlot_tagged, withSlot_tagged]
    exact (ih hcontent).tagged tag
  | mapping as =>
    cases sameForm h.same with
    | mapping _ bs _ =>
      cases step with
      | key name =>
        cases hxy with
        | nowhere | unkeyed => exact h
        | free => exact h.erase name
        | holds hvalue => exact h.insert hvalue name
      | index => exact h
  | sequence as =>
    cases sameForm h.same with
    | sequence _ bs _ =>
      cases step with
      | key => exact h
      | index position =>
        cases hxy with
        | nowhere | unkeyed | free => exact h
        | @holds v w hvalue =>
          exact .sequence (set h.forall₂ hvalue position)
  | null | bool | int | float | text =>
    cases sameForm h.same
    cases step <;> exact h

end Alike

/-- **Two slots may be filled in either order**: the nodes differ in the order of keys at most. -/
theorem alike_withSlot_comm (hnode : node.Alike node) (hx : x.Alike x) (hy : y.Alike y)
    (hne : next ≠ step) :
    ((node.withSlot step x).withSlot next y).Alike ((node.withSlot next y).withSlot step x) := by
  have hleft := ((hnode.withSlot hx step).withSlot hy next).left
  have hright := ((hnode.withSlot hy next).withSlot hx step).left
  induction node using Tree.inductionOn with
  | tagged tag content ih =>
    simp only [withSlot_tagged, uniqueKeys_tagged] at hleft hright ⊢
    have hcontent : content.Alike content := .refl (uniqueKeys_tagged ▸ hnode.left)
    exact (ih hcontent hleft hright).tagged tag
  | mapping entries =>
    cases step with
    | index => cases next <;> cases y <;> exact .refl hleft
    | key name =>
      cases next with
      | index => cases x <;> exact .refl hleft
      | key other =>
        have hnames : name ≠ other := fun h => hne (h ▸ rfl)
        have hkeys := (uniqueKeys_mapping.1 hnode.left).1
        cases x with
        | nowhere | unkeyed => cases y <;> exact .refl hleft
        | free =>
          cases y with
          | nowhere | unkeyed => exact .refl hleft
          | free =>
            refine alike_of_perm hleft hright ?_
            rw [erase_comm]
          | holds w => exact alike_of_perm hleft hright (perm_insert_erase hkeys hnames w)
        | holds v =>
          cases y with
          | nowhere | unkeyed => exact .refl hleft
          | free =>
            exact alike_of_perm hleft hright (perm_insert_erase hkeys hnames.symm v).symm
          | holds w => exact alike_of_perm hleft hright (perm_insert_insert hkeys hnames.symm w v)
  | sequence items =>
    cases step with
    | key => cases next <;> cases y <;> exact .refl hleft
    | index position =>
      cases next with
      | key => cases x <;> exact .refl hleft
      | index other =>
        have hpositions : position ≠ other := fun h => hne (h ▸ rfl)
        cases x with
        | nowhere | unkeyed | free => cases y <;> exact .refl hleft
        | holds v =>
          cases y with
          | nowhere | unkeyed | free => exact .refl hleft
          | holds w =>
            show (Tree.sequence ((items.set position v).set other w)).Alike
              (.sequence ((items.set other w).set position v))
            rw [List.set_comm v w hpositions]
            exact .refl hright
  | null | bool | int | float | text => cases step <;> cases next <;> exact .refl hleft

end Tree

end OperatorBundle
