import OperatorBundle.Locator.Resolve
import OperatorBundle.Proofs.Tree.Entries

/-!
Changes in place. Where a segment picks an element, the others stay as they are; tags on the way are
looked through and kept.
-/

namespace OperatorBundle

section Lists

variable {α ε : Type} {change : α → Except ε α} {missing : ε}

theorem map_eq_ok {β : Type} {x : Except ε α} {f : α → β} {b : β} :
    x.map f = .ok b ↔ ∃ a, x = .ok a ∧ f a = b := by
  cases x <;> simp [Except.map]

theorem changeFirst_append {accepts : α → Bool} {pre : List α} {a : α} (post : List α)
    (hpre : ∀ b ∈ pre, accepts b = false) (ha : accepts a) :
    changeFirst accepts change missing (pre ++ a :: post) =
      (change a).map fun b => pre ++ b :: post := by
  induction pre with
  | nil => rw [List.nil_append, changeFirst, if_pos ha]; rfl
  | cons b pre ih =>
    obtain ⟨hb, hpre⟩ := List.forall_mem_cons.1 hpre
    rw [List.cons_append, changeFirst, if_neg (by simp [hb]), ih hpre]
    cases change a <;> rfl

theorem changeAt_append (pre : List α) (a : α) (post : List α) :
    changeAt change missing pre.length (pre ++ a :: post) =
      (change a).map fun b => pre ++ b :: post := by
  induction pre with
  | nil => rfl
  | cons b pre ih =>
    rw [List.cons_append, List.length_cons, changeAt, ih]
    cases change a <;> rfl

theorem changeFirst_of_none {accepts : α → Bool} {as : List α} (h : as.find? accepts = none) :
    changeFirst accepts change missing as = .error missing := by
  induction as with
  | nil => rfl
  | cons a as ih =>
    obtain ⟨ha, has⟩ := List.forall_mem_cons.1 (List.find?_eq_none.1 h)
    rw [changeFirst, if_neg ha, ih (List.find?_eq_none.2 has)]
    rfl

theorem changeAt_of_none {position : Nat} {as : List α} (h : as[position]? = none) :
    changeAt change missing position as = .error missing := by
  induction as generalizing position with
  | nil => cases position <;> rfl
  | cons a as ih =>
    cases position with
    | zero => cases h
    | succ position =>
      rw [List.getElem?_cons_succ] at h
      rw [changeAt, ih h]
      rfl

/-- What a change of the first element that satisfies a condition does. -/
theorem exists_of_changeFirst {accepts : α → Bool} {as bs : List α}
    (h : changeFirst accepts change missing as = .ok bs) :
    ∃ pre a post b, as = pre ++ a :: post ∧ bs = pre ++ b :: post ∧
      (∀ c ∈ pre, accepts c = false) ∧ accepts a ∧ change a = .ok b := by
  induction as generalizing bs with
  | nil => cases h
  | cons a as ih =>
    rw [changeFirst] at h
    split_ifs at h with ha
    · obtain ⟨b, hb, rfl⟩ := map_eq_ok.1 h
      exact ⟨[], a, as, b, rfl, rfl, by simp, ha, hb⟩
    · obtain ⟨rest, hrest, rfl⟩ := map_eq_ok.1 h
      obtain ⟨pre, a', post, b, rfl, rfl, hpre, ha', hb⟩ := ih hrest
      exact ⟨a :: pre, a', post, b, rfl, rfl,
        List.forall_mem_cons.2 ⟨by simpa using ha, hpre⟩, ha', hb⟩

/-- What a change of the element at a position does. -/
theorem exists_of_changeAt {position : Nat} {as bs : List α}
    (h : changeAt change missing position as = .ok bs) :
    ∃ pre a post b, as = pre ++ a :: post ∧ bs = pre ++ b :: post ∧ position = pre.length ∧
      change a = .ok b := by
  induction as generalizing position bs with
  | nil => cases position <;> cases h
  | cons a as ih =>
    cases position with
    | zero =>
      obtain ⟨b, hb, rfl⟩ := map_eq_ok.1 h
      exact ⟨[], a, as, b, rfl, rfl, rfl, hb⟩
    | succ position =>
      obtain ⟨rest, hrest, rfl⟩ := map_eq_ok.1 h
      obtain ⟨pre, a', post, b, rfl, rfl, rfl, hb⟩ := ih hrest
      exact ⟨a :: pre, a', post, b, rfl, rfl, rfl, hb⟩

end Lists

/-- Whether a segment picks an item behind others. -/
def Segment.picks (segment : Segment) (before : List Tree) (item : Tree) : Prop :=
  match segment with
  | .key _ => False
  | .index position => position = before.length
  | .find selector => selector.accepts item ∧ ∀ t ∈ before, selector.accepts t = false

/-- A segment picks one item of a list. -/
theorem Segment.picks_unique {segment : Segment} {pre pre' post post' : List Tree} {a b : Tree}
    (ha : segment.picks pre a) (hb : segment.picks pre' b)
    (h : pre ++ a :: post = pre' ++ b :: post') : pre = pre' ∧ a = b ∧ post = post' := by
  -- both are splits of one list, so they agree as soon as their lengths do
  have hlength : pre.length = pre'.length := by
    cases segment with
    | key name => cases ha
    | index position => exact ha.symm.trans hb
    | find selector =>
      -- the position is that of the first item that is accepted
      have hfirst (before : List Tree) (item : Tree) (after : List Tree)
          (hpicks : (Segment.find selector).picks before item) :
          (before ++ item :: after).findIdx selector.accepts = before.length := by
        have hbefore := List.findIdx_eq_length_of_false hpicks.2
        rw [List.findIdx_append, if_neg (by omega), List.findIdx_cons, hpicks.1]
        simp
      rw [← hfirst pre a post ha, h, hfirst pre' b post' hb]
  obtain ⟨rfl, htail⟩ := List.append_inj h hlength
  obtain ⟨rfl, rfl⟩ := List.cons.inj htail
  exact ⟨rfl, rfl, rfl⟩

namespace Tree

variable {ε : Type} {f : Tree → Except ε Tree} {missing : ε}

/-- The value under a key is changed, in a mapping that does not have the key before. -/
theorem changeChild_mapping {name : String} {pre : List Entry} (value : Tree) (post : List Entry)
    (hpre : ∀ e ∈ pre, e.1.isName name = false) :
    (Tree.mapping (pre ++ (.text name, value) :: post)).changeChild f missing (.key name) =
      (f value).map fun changed => .mapping (pre ++ (.text name, changed) :: post) := by
  rw [changeChild, changeFirst_append post hpre (by simp)]
  unfold changeValue
  cases f value <;> rfl

/-- The item that a segment picks is changed. -/
theorem changeChild_sequence {segment : Segment} {pre : List Tree} {item : Tree} (post : List Tree)
    (h : segment.picks pre item) :
    (Tree.sequence (pre ++ item :: post)).changeChild f missing segment =
      (f item).map fun changed => .sequence (pre ++ changed :: post) := by
  cases segment with
  | key name => cases h
  | index position =>
    obtain rfl : position = pre.length := h
    rw [changeChild, changeAt_append]
    cases f item <;> rfl
  | find selector =>
    rw [changeChild, changeFirst_append post h.2 h.1]
    cases f item <;> rfl

/-! ### Children -/

@[simp] theorem entries?_mapping (entries : List Entry) :
    (Tree.mapping entries).entries? = some entries := rfl

@[simp] theorem items?_sequence (items : List Tree) :
    (Tree.sequence items).items? = some items := rfl

@[simp] theorem entries?_tagged (tag : String) (content : Tree) :
    (Tree.tagged tag content).entries? = content.entries? := rfl

@[simp] theorem items?_tagged (tag : String) (content : Tree) :
    (Tree.tagged tag content).items? = content.items? := rfl

@[simp] theorem field?_tagged (tag : String) (content : Tree) (name : String) :
    (Tree.tagged tag content).field? name = content.field? name := rfl

@[simp] theorem child?_tagged (tag : String) (content : Tree) (segment : Segment) :
    (Tree.tagged tag content).child? segment = content.child? segment := by
  cases segment <;> rfl

/-- A node is not both a mapping and a sequence. -/
theorem items?_of_entries? {tree : Tree} {entries : List Entry} (h : tree.entries? = some entries) :
    tree.items? = none := by
  induction tree using Tree.inductionOn with
  | tagged tag content ih => exact ih h
  | null | bool | int | float | text | sequence | mapping => first | rfl | cases h

theorem entries?_of_items? {tree : Tree} {items : List Tree} (h : tree.items? = some items) :
    tree.entries? = none := by
  cases hentries : tree.entries? with
  | none => rfl
  | some entries =>
    rw [items?_of_entries? hentries] at h
    cases h

/-- A node with a text is neither a mapping nor a sequence. -/
theorem entries?_of_text? {tree : Tree} {text : String} (h : tree.text? = some text) :
    tree.entries? = none := by
  induction tree using Tree.inductionOn with
  | tagged tag content ih => exact ih h
  | text => rfl
  | null | bool | int | float | sequence | mapping => cases h

theorem items?_of_text? {tree : Tree} {text : String} (h : tree.text? = some text) :
    tree.items? = none := by
  induction tree using Tree.inductionOn with
  | tagged tag content ih => exact ih h
  | text => rfl
  | null | bool | int | float | sequence | mapping => cases h

theorem child?_of_text? {tree : Tree} {text : String} (h : tree.text? = some text)
    (segment : Segment) : tree.child? segment = none := by
  cases segment with
  | key name => rw [child?, field?, entries?_of_text? h, Option.bind_none]
  | index | find => rw [child?, items?_of_text? h, Option.bind_none]

theorem resolve?_singleton (tree : Tree) (segment : Segment) :
    tree.resolve? [segment] = tree.child? segment := by
  rw [resolve?_cons]
  cases tree.child? segment <;> simp

/-- The items that a segment picks from, and the item. -/
theorem child?_of_picks {tree : Tree} {segment : Segment} {pre post : List Tree} {item : Tree}
    (hitems : tree.items? = some (pre ++ item :: post)) (h : segment.picks pre item) :
    tree.child? segment = some item := by
  cases segment with
  | key name => cases h
  | index position =>
    obtain rfl : position = pre.length := h
    simp [child?, hitems]
  | find selector =>
    obtain ⟨haccepts, hpre⟩ := h
    have hnone : pre.find? selector.accepts = none :=
      List.find?_eq_none.2 fun t ht => by simp [hpre t ht]
    rw [child?, hitems, Option.bind_some, List.find?_append, hnone, Option.none_or,
      List.find?_cons_of_pos haccepts]

theorem exists_of_child? {tree : Tree} {segment : Segment} {child : Tree}
    (h : tree.child? segment = some child) :
    (∃ name pre post, segment = .key name ∧
      tree.entries? = some (pre ++ (.text name, child) :: post) ∧
      ∀ e ∈ pre, e.1.isName name = false) ∨
    ∃ pre post, tree.items? = some (pre ++ child :: post) ∧ segment.picks pre child := by
  cases segment with
  | key name =>
    obtain ⟨entries, hentries, hlookup⟩ := Option.bind_eq_some_iff.1 h
    obtain ⟨pre, post, rfl, hpre⟩ := exists_of_lookup? hlookup
    exact .inl ⟨name, pre, post, rfl, hentries, hpre⟩
  | index position =>
    obtain ⟨items, hitems, hget⟩ := Option.bind_eq_some_iff.1 h
    obtain ⟨hlt, rfl⟩ := List.getElem?_eq_some_iff.1 hget
    refine .inr ⟨items.take position, items.drop (position + 1), ?_, ?_⟩
    · rw [hitems, ← List.drop_eq_getElem_cons hlt, List.take_append_drop]
    · show position = (items.take position).length
      rw [List.length_take]
      omega
  | find selector =>
    obtain ⟨items, hitems, hfind⟩ := Option.bind_eq_some_iff.1 h
    obtain ⟨haccepts, pre, post, rfl, hpre⟩ := List.find?_eq_some_iff_append.1 hfind
    exact .inr ⟨pre, post, hitems, haccepts, fun t ht => by simpa using hpre t ht⟩

/-! ### Changing a child -/

/-- What a change of a child does: the value of one entry is another, or one item is. -/
inductive ChildChanged (f : Tree → Except ε Tree) : Segment → Tree → Tree → Prop
  | value {name : String} {tree changed : Tree} {pre post : List Entry} {old new : Tree}
      (hold : tree.entries? = some (pre ++ (.text name, old) :: post))
      (hnew : changed.entries? = some (pre ++ (.text name, new) :: post))
      (hpre : ∀ e ∈ pre, e.1.isName name = false) (h : f old = .ok new) :
    ChildChanged f (.key name) tree changed
  | item {segment : Segment} {tree changed : Tree} {pre post : List Tree} {old new : Tree}
      (hold : tree.items? = some (pre ++ old :: post))
      (hnew : changed.items? = some (pre ++ new :: post))
      (hpicks : segment.picks pre old) (h : f old = .ok new) :
    ChildChanged f segment tree changed

theorem childChanged {segment : Segment} {tree changed : Tree}
    (h : tree.changeChild f missing segment = .ok changed) :
    ChildChanged f segment tree changed := by
  induction tree using Tree.inductionOn generalizing changed with
  | tagged tag content ih =>
    obtain ⟨inner, hcontent, rfl⟩ := map_eq_ok.1 h
    cases ih hcontent with
    | value hold hnew hpre hf => exact .value hold hnew hpre hf
    | item hold hnew hpicks hf => exact .item hold hnew hpicks hf
  | mapping entries =>
    cases segment with
    | key name =>
      obtain ⟨others, hentries, rfl⟩ := map_eq_ok.1 h
      obtain ⟨pre, ⟨key, old⟩, post, e', rfl, rfl, hpre, hkey, hvalue⟩ :=
        exists_of_changeFirst hentries
      obtain rfl : key = .text name := isName_iff.1 hkey
      obtain ⟨new, hnew, rfl⟩ := map_eq_ok.1 hvalue
      exact .value rfl rfl hpre hnew
    | index | find => cases h
  | sequence items =>
    cases segment with
    | key name => cases h
    | index position =>
      obtain ⟨others, hitems, rfl⟩ := map_eq_ok.1 h
      obtain ⟨pre, old, post, new, rfl, rfl, hposition, hnew⟩ := exists_of_changeAt hitems
      exact .item rfl rfl hposition hnew
    | find selector =>
      obtain ⟨others, hitems, rfl⟩ := map_eq_ok.1 h
      obtain ⟨pre, old, post, new, rfl, rfl, hpre, haccepts, hnew⟩ := exists_of_changeFirst hitems
      exact .item rfl rfl ⟨haccepts, hpre⟩ hnew
  | null | bool | int | float | text => cases h

/-- One layer of a tree around a node: a tag, the other entries of a mapping, or the other items of
a sequence. -/
inductive Layer
  | tag (mark : String)
  | entry (pre : List Entry) (name : String) (post : List Entry)
  | item (pre post : List Tree)

/-- A layer with a node in it. -/
def Layer.around : Layer → Tree → Tree
  | .tag mark, node => .tagged mark node
  | .entry pre name post, node => .mapping (pre ++ (.text name, node) :: post)
  | .item pre post, node => .sequence (pre ++ node :: post)

/-- Layers with a node in them, the outermost first. -/
def wrap (layers : List Layer) (node : Tree) : Tree := layers.foldr Layer.around node

@[simp] theorem wrap_nil (node : Tree) : wrap [] node = node := rfl

@[simp] theorem wrap_cons (layer : Layer) (layers : List Layer) (node : Tree) :
    wrap (layer :: layers) node = layer.around (wrap layers node) := rfl

theorem wrap_append (first second : List Layer) (node : Tree) :
    wrap (first ++ second) node = wrap first (wrap second node) := List.foldr_append

/-- A change of a child that is there: the layers around the child are kept. -/
theorem exists_layers {tree child : Tree} {segment : Segment}
    (h : tree.child? segment = some child) :
    ∃ layers, wrap layers child = tree ∧
      ∀ (f : Tree → Except ε Tree) (missing : ε),
        tree.changeChild f missing segment = (f child).map (wrap layers) := by
  induction tree using Tree.inductionOn with
  | tagged tag content ih =>
    rw [child?_tagged] at h
    obtain ⟨layers, rfl, hchange⟩ := ih h
    refine ⟨.tag tag :: layers, rfl, ?_⟩
    intro f missing
    rw [changeChild, hchange]
    cases f child <;> rfl
  | mapping entries =>
    rcases exists_of_child? h with ⟨name, pre, post, rfl, hentries, hpre⟩ | ⟨pre, post, hitems, -⟩
    · obtain rfl := Option.some.inj hentries
      exact ⟨[.entry pre name post], rfl, fun f missing => changeChild_mapping child post hpre⟩
    · cases hitems
  | sequence items =>
    rcases exists_of_child? h with ⟨name, pre, post, rfl, hentries, -⟩ | ⟨pre, post, hitems, hpicks⟩
    · cases hentries
    · obtain rfl := Option.some.inj hitems
      exact ⟨[.item pre post], rfl, fun f missing => changeChild_sequence post hpicks⟩
  | null | bool | int | float | text =>
    rcases exists_of_child? h with ⟨name, pre, post, rfl, hentries, -⟩ | ⟨pre, post, hitems, -⟩
    · cases hentries
    · cases hitems

/-- A child that is missing is not changed. -/
theorem changeChild_of_none {tree : Tree} {segment : Segment} (h : tree.child? segment = none) :
    tree.changeChild f missing segment = .error missing := by
  induction tree using Tree.inductionOn with
  | tagged tag content ih =>
    rw [child?_tagged] at h
    rw [changeChild, ih h]
    rfl
  | mapping entries =>
    cases segment with
    | key name =>
      have hfind : entries.find? (fun e => e.1.isName name) = none := Option.map_eq_none_iff.1 h
      rw [changeChild, changeFirst_of_none hfind]
      rfl
    | index | find => rfl
  | sequence items =>
    cases segment with
    | key name => rfl
    | index position =>
      rw [changeChild, changeAt_of_none h]
      rfl
    | find selector =>
      have hfind : items.find? selector.accepts = none := h
      rw [changeChild, changeFirst_of_none hfind]
      rfl
  | null | bool | int | float | text => rfl

/-! ### Changing below a path -/

variable {tree : Tree} {path : List Segment}

theorem change_cons (segment : Segment) (rest : List Segment) (tree : Tree) :
    tree.change f missing (segment :: rest) =
      tree.changeChild (fun child => child.change f missing rest) missing segment := rfl

/-- A path that leads nowhere. -/
theorem change_of_none (h : tree.resolve? path = none) :
    tree.change f missing path = .error missing := by
  induction path generalizing tree with
  | nil => simp at h
  | cons segment rest ih =>
    rw [change_cons]
    rw [resolve?_cons] at h
    cases hchild : tree.child? segment with
    | none => exact changeChild_of_none hchild
    | some child =>
      rw [hchild, Option.bind_some] at h
      obtain ⟨layers, -, hchange⟩ := exists_layers hchild
      rw [hchange, ih h]
      rfl

/-- A path that leads to a node: the layers around the node are kept. -/
theorem exists_layers_path {node : Tree} (h : tree.resolve? path = some node) :
    ∃ layers, wrap layers node = tree ∧
      ∀ (f : Tree → Except ε Tree) (missing : ε),
        tree.change f missing path = (f node).map (wrap layers) := by
  induction path generalizing tree with
  | nil =>
    rw [resolve?_nil] at h
    obtain rfl := Option.some.inj h
    refine ⟨[], rfl, ?_⟩
    intro f missing
    show f tree = _
    cases f tree <;> rfl
  | cons segment rest ih =>
    rw [resolve?_cons] at h
    obtain ⟨child, hchild, hrest⟩ := Option.bind_eq_some_iff.1 h
    obtain ⟨inner, hinner, hchange⟩ := ih hrest
    obtain ⟨outer, houter, hchange'⟩ := exists_layers hchild
    refine ⟨outer ++ inner, ?_, fun f missing => ?_⟩
    · rw [wrap_append, hinner, houter]
    · rw [change_cons, hchange', hchange]
      cases f node with
      | error e => rfl
      | ok new => exact congrArg Except.ok (wrap_append outer inner new).symm

/-- A change that leaves the node at the end of its path as it is changes nothing. -/
theorem change_of_settled {f : Tree → Except ε Tree} {node : Tree}
    (hnode : tree.resolve? path = some node) (hsettled : f node = .ok node) (missing : ε) :
    tree.change f missing path = .ok tree := by
  obtain ⟨layers, hlayers, hchange⟩ := exists_layers_path (ε := ε) hnode
  rw [hchange, hsettled]
  exact congrArg Except.ok hlayers

end Tree

end OperatorBundle
