import OperatorBundle.Proofs.Locator.Change

/-!
Concrete paths: string keys and positions only. In a given tree a locator leads along one concrete
path, on which each condition is the position of the first item that it accepts. A change at the end
of the path renews one value or item of each collection on the way; all else in these collections
stays in its place, and they keep their tags.
-/

namespace OperatorBundle.Tree

/-- One step of a concrete path. -/
inductive Step
  | key (name : String)
  | index (position : Nat)
  deriving DecidableEq, Repr

/-- A step as a segment of a locator. -/
def Step.segment : Step → Segment
  | .key name => .key name
  | .index position => .index position

/-- The node at a concrete path. -/
def at? (tree : Tree) (path : List Step) : Option Tree :=
  tree.resolve? (path.map Step.segment)

/-- The step that a segment takes from a node. -/
def step? (tree : Tree) : Segment → Option Step
  | .key name => some (.key name)
  | .index position => some (.index position)
  | .find selector =>
    tree.items?.bind fun items => (items.findIdx? selector.accepts).map .index

/-- The concrete path of segments, all but the last of which have to lead somewhere. -/
def concrete? : List Segment → Tree → Option (List Step)
  | [], _ => some []
  | [last], tree => (tree.step? last).map fun step => [step]
  | segment :: rest, tree => do
    let step ← tree.step? segment
    let child ← tree.child? segment
    some (step :: (← concrete? rest child))

/-- The tags of a node, the outermost first. -/
def tags : Tree → List String
  | .tagged tag content => tag :: content.tags
  | _ => []

@[simp] theorem at?_nil (tree : Tree) : tree.at? [] = some tree := resolve?_nil tree

theorem at?_cons (tree : Tree) (step : Step) (rest : List Step) :
    tree.at? (step :: rest) = (tree.child? step.segment).bind fun child => child.at? rest :=
  resolve?_cons tree step.segment (rest.map Step.segment)

theorem concrete?_cons {tree child : Tree} {segment : Segment} (rest : List Segment)
    (h : tree.child? segment = some child) :
    tree.concrete? (segment :: rest) =
      (tree.step? segment).bind fun step => (child.concrete? rest).map (step :: ·) := by
  cases rest with
  | nil => cases hstep : tree.step? segment <;> simp [concrete?, hstep]
  | cons next rest =>
    rw [concrete?, h]
    · cases tree.step? segment with
      | none => rfl
      | some step => cases hrest : child.concrete? (next :: rest) <;> simp [hrest]
    · simp

/-- The concrete path of a place in a node. -/
theorem concrete?_append {tree node : Tree} {path : List Segment} (last : Segment)
    (h : tree.resolve? path = some node) :
    tree.concrete? (path ++ [last]) =
      (tree.concrete? path).bind fun steps =>
        (node.step? last).map fun step => steps ++ [step] := by
  induction path generalizing tree with
  | nil =>
    obtain rfl : tree = node := by simpa using h
    simp [concrete?]
  | cons segment rest ih =>
    rw [resolve?_cons] at h
    obtain ⟨child, hchild, hrest⟩ := Option.bind_eq_some_iff.1 h
    rw [List.cons_append, concrete?_cons _ hchild, concrete?_cons _ hchild, ih hrest]
    cases tree.step? segment with
    | none => rfl
    | some step =>
      cases child.concrete? rest with
      | none => rfl
      | some steps => cases node.step? last <;> simp

theorem at?_append_singleton (tree : Tree) (path : List Step) (step : Step) :
    tree.at? (path ++ [step]) = (tree.at? path).bind fun node => node.child? step.segment := by
  rw [at?, List.map_append, resolve?_append]
  exact congrArg _ (funext fun node => resolve?_singleton node step.segment)

/-- A node is its tags and what is below them. -/
theorem eq_of_untagged {tree changed : Tree} (htags : changed.tags = tree.tags)
    (h : changed.untagged = tree.untagged) : changed = tree := by
  induction tree using Tree.inductionOn generalizing changed with
  | tagged tag content ih =>
    cases changed with
    | tagged other inner =>
      obtain ⟨rfl, hinner⟩ := List.cons.inj htags
      rw [ih hinner h]
    | null | bool | int | float | text | sequence | mapping => cases htags
  | null | bool | int | float | text | sequence | mapping =>
    cases changed with
    | tagged => cases htags
    | null | bool | int | float | text | sequence | mapping => exact h

theorem untagged_of_entries? {tree : Tree} {entries : List Entry}
    (h : tree.entries? = some entries) : tree.untagged = .mapping entries := by
  induction tree using Tree.inductionOn with
  | tagged tag content ih => exact ih h
  | mapping => exact congrArg Tree.mapping (Option.some.inj h)
  | null | bool | int | float | text | sequence => cases h

theorem untagged_of_items? {tree : Tree} {items : List Tree} (h : tree.items? = some items) :
    tree.untagged = .sequence items := by
  induction tree using Tree.inductionOn with
  | tagged tag content ih => exact ih h
  | sequence => exact congrArg Tree.sequence (Option.some.inj h)
  | null | bool | int | float | text | mapping => cases h

/-- A mapping in which other entries have taken the place of all does not show it at a step where
both have the same. -/
theorem child?_of_entries? {tree changed : Tree} {entries others : List Entry} {step : Step}
    (hold : tree.entries? = some entries) (hnew : changed.entries? = some others)
    (h : ∀ name, step = .key name → lookup? name others = lookup? name entries) :
    changed.child? step.segment = tree.child? step.segment := by
  cases step with
  | key name =>
    simp only [Step.segment, child?, field?, hold, hnew, Option.bind_some, h name rfl]
  | index position =>
    simp only [Step.segment, child?, items?_of_entries? hold, items?_of_entries? hnew]

/-- Sequences have no keys. -/
theorem child?_key_of_items? {tree : Tree} {items : List Tree} (h : tree.items? = some items)
    (name : String) : tree.child? (.key name) = none := by
  rw [child?, field?, entries?_of_items? h, Option.bind_none]

/-! ### A collection with one renewed part -/

/-- A collection in which one value or item has given way to another. All other entries and items
stay as they are, in their order. -/
inductive Renewed : Step → Tree → Tree → Tree → Tree → Prop
  | value {name : String} {tree changed old new : Tree} {pre post : List Entry}
      (hold : tree.entries? = some (pre ++ (.text name, old) :: post))
      (hnew : changed.entries? = some (pre ++ (.text name, new) :: post))
      (hpre : ∀ e ∈ pre, e.1.isName name = false) :
    Renewed (.key name) tree changed old new
  | item {tree changed old new : Tree} {pre post : List Tree}
      (hold : tree.items? = some (pre ++ old :: post))
      (hnew : changed.items? = some (pre ++ new :: post)) :
    Renewed (.index pre.length) tree changed old new

namespace Renewed

variable {step other : Step} {tree changed old new : Tree}

theorem child? (h : Renewed step tree changed old new) :
    tree.child? step.segment = some old ∧ changed.child? step.segment = some new := by
  cases h with
  | @value name _ _ _ _ pre post hold hnew hpre =>
    simp only [Step.segment, Tree.child?, field?, hold, hnew, Option.bind_some]
    exact ⟨lookup?_append old post hpre, lookup?_append new post hpre⟩
  | item hold hnew => simp [Step.segment, Tree.child?, hold, hnew]

/-- The other steps lead where they led. -/
theorem child?_of_ne (h : Renewed step tree changed old new) (hne : other ≠ step) :
    changed.child? other.segment = tree.child? other.segment := by
  cases h with
  | @value name _ _ _ _ pre post hold hnew hpre =>
    refine child?_of_entries? hold hnew ?_
    rintro field rfl
    exact lookup?_of_ne (fun h => hne (by rw [h])) pre post old new
  | @item _ _ _ _ pre post hold hnew =>
    cases other with
    | key field => simp only [Step.segment, child?_key_of_items? hold, child?_key_of_items? hnew]
    | index position =>
      have hposition : position ≠ pre.length := fun h => hne (by rw [h])
      simp only [Step.segment, Tree.child?, hold, hnew, Option.bind_some]
      rcases Nat.lt_or_gt_of_ne hposition with hlt | hgt
      · rw [List.getElem?_append_left hlt, List.getElem?_append_left hlt]
      · obtain ⟨further, rfl⟩ := Nat.exists_eq_add_of_lt hgt
        rw [List.getElem?_append_right (by omega), List.getElem?_append_right (by omega)]
        simp [Nat.add_assoc]

/-- Nothing has changed if the part is as it was. -/
theorem eq (h : Renewed step tree changed old old) (htags : changed.tags = tree.tags) :
    changed = tree := by
  refine eq_of_untagged htags ?_
  cases h with
  | value hold hnew => rw [untagged_of_entries? hold, untagged_of_entries? hnew]
  | item hold hnew => rw [untagged_of_items? hold, untagged_of_items? hnew]

end Renewed

/-! ### Changes -/

variable {ε : Type} {f : Tree → Except ε Tree} {missing : ε}

theorem tags_of_changeChild {segment : Segment} {tree changed : Tree}
    (h : tree.changeChild f missing segment = .ok changed) : changed.tags = tree.tags := by
  induction tree using Tree.inductionOn generalizing changed with
  | tagged tag content ih =>
    obtain ⟨inner, hinner, rfl⟩ := map_eq_ok.1 h
    rw [tags, tags, ih hinner]
  | mapping entries =>
    cases segment with
    | key name =>
      obtain ⟨others, -, rfl⟩ := map_eq_ok.1 h
      rfl
    | index | find => cases h
  | sequence items =>
    cases segment with
    | key name => cases h
    | index position =>
      obtain ⟨others, -, rfl⟩ := map_eq_ok.1 h
      rfl
    | find selector =>
      obtain ⟨others, -, rfl⟩ := map_eq_ok.1 h
      rfl
  | null | bool | int | float | text => cases h

/-- The step to the item that a segment picks. -/
theorem step?_of_picks {segment : Segment} {tree item : Tree} {pre post : List Tree}
    (hitems : tree.items? = some (pre ++ item :: post)) (h : segment.picks pre item) :
    tree.step? segment = some (.index pre.length) := by
  cases segment with
  | key name => cases h
  | index position =>
    obtain rfl : position = pre.length := h
    rfl
  | find selector =>
    obtain ⟨haccepts, hpre⟩ := h
    have hnone : pre.findIdx? selector.accepts = none := List.findIdx?_eq_none_iff.2 hpre
    simp [step?, hitems, List.findIdx?_append, hnone, List.findIdx?_cons, haccepts]

/-- A change of a child renews it, and nothing else in its parent. -/
theorem exists_renewed_of_changeChild {segment : Segment} {tree changed : Tree}
    (h : tree.changeChild f missing segment = .ok changed) :
    ∃ step old new, tree.step? segment = some step ∧ tree.child? segment = some old ∧
      f old = .ok new ∧ Renewed step tree changed old new := by
  cases childChanged h with
  | @value name _ _ pre post old new hold hnew hpre hchange =>
    have hrenewed : Renewed (.key name) tree changed old new := .value hold hnew hpre
    exact ⟨_, old, new, rfl, hrenewed.child?.1, hchange, hrenewed⟩
  | item hold hnew hpicks hchange =>
    exact ⟨_, _, _, step?_of_picks hold hpicks, child?_of_picks hold hpicks, hchange,
      .item hold hnew⟩

/-- Two trees that differ only in the nodes at the end of a concrete path, with these nodes. -/
inductive Between : List Step → Tree → Tree → Tree → Tree → Prop
  | here (node next : Tree) : Between [] node next node next
  | within {step : Step} {path : List Step} {tree changed old new node next : Tree}
      (htags : changed.tags = tree.tags) (hrenewed : Renewed step tree changed old new)
      (h : Between path old new node next) :
    Between (step :: path) tree changed node next

/-- A change at the end of a path changes nothing beside the concrete path. -/
theorem exists_between_of_change {path : List Segment} {tree changed : Tree}
    (h : tree.change f missing path = .ok changed) :
    ∃ steps node next, tree.concrete? path = some steps ∧ tree.resolve? path = some node ∧
      f node = .ok next ∧ Between steps tree changed node next := by
  induction path generalizing tree changed with
  | nil => exact ⟨[], tree, changed, rfl, resolve?_nil tree, h, .here tree changed⟩
  | cons segment rest ih =>
    rw [change_cons] at h
    obtain ⟨step, old, new, hstep, hchild, hchange, hrenewed⟩ := exists_renewed_of_changeChild h
    obtain ⟨steps, node, next, hsteps, hnode, hnext, hbetween⟩ := ih hchange
    refine ⟨step :: steps, node, next, ?_, ?_, hnext, ?_⟩
    · rw [concrete?_cons rest hchild, hstep, Option.bind_some, hsteps, Option.map_some]
    · rw [resolve?_cons, hchild, Option.bind_some, hnode]
    · exact .within (tags_of_changeChild h) hrenewed hbetween

namespace Between

variable {path : List Step} {tree changed node next : Tree}

theorem at? (h : Between path tree changed node next) :
    tree.at? path = some node ∧ changed.at? path = some next := by
  induction h with
  | here => exact ⟨at?_nil _, at?_nil _⟩
  | within _ hrenewed _ ih =>
    rw [at?_cons, at?_cons, hrenewed.child?.1, hrenewed.child?.2]
    exact ih

/-- Nothing has changed if the nodes are the same. -/
theorem eq (h : Between path tree changed node next) (hnext : next = node) : changed = tree := by
  induction h with
  | here => exact hnext
  | within htags hrenewed _ ih =>
    obtain rfl := ih hnext
    exact hrenewed.eq htags

/-- The collections on the way. -/
theorem exists_of_append {first rest : List Step} {step : Step}
    (h : Between (first ++ step :: rest) tree changed node next) :
    ∃ n m old new, tree.at? first = some n ∧ changed.at? first = some m ∧ m.tags = n.tags ∧
      Renewed step n m old new := by
  induction first generalizing tree changed with
  | nil =>
    cases h with
    | within htags hrenewed _ =>
      exact ⟨tree, changed, _, _, at?_nil tree, at?_nil changed, htags, hrenewed⟩
  | cons above first ih =>
    cases h with
    | within _ hrenewed h =>
      rw [at?_cons, at?_cons, hrenewed.child?.1, hrenewed.child?.2]
      exact ih h

end Between

/-! ### Layers -/

/-- The layers around the node at a step are there whatever node is put in them. -/
theorem exists_layers_step {step : Step} {tree child : Tree}
    (h : tree.child? step.segment = some child) :
    ∃ layers, wrap layers child = tree ∧
      ∀ other, (wrap layers other).child? step.segment = some other ∧
        ∀ (f : Tree → Except ε Tree) (missing : ε),
          (wrap layers other).changeChild f missing step.segment = (f other).map (wrap layers) := by
  induction tree using Tree.inductionOn with
  | tagged tag content ih =>
    rw [child?_tagged] at h
    obtain ⟨layers, rfl, hothers⟩ := ih h
    refine ⟨.tag tag :: layers, rfl, fun other => ⟨?_, fun f missing => ?_⟩⟩
    · rw [wrap_cons, Layer.around, child?_tagged, (hothers other).1]
    · rw [wrap_cons, Layer.around, changeChild, (hothers other).2]
      cases f other <;> rfl
  | mapping entries =>
    rcases exists_of_child? h with ⟨name, pre, post, hkey, hentries, hpre⟩ | ⟨pre, post, hitems, -⟩
    · obtain rfl := Option.some.inj hentries
      refine ⟨[.entry pre name post], rfl, fun other => ⟨?_, fun f missing => ?_⟩⟩
      · rw [hkey]
        exact lookup?_append other post hpre
      · rw [hkey]
        exact changeChild_mapping other post hpre
    · cases hitems
  | sequence items =>
    cases step with
    | key => cases h
    | index position =>
      obtain ⟨name, -, -, hkey, -⟩ | ⟨pre, post, hitems, hposition⟩ := exists_of_child? h
      · cases hkey
      obtain rfl := Option.some.inj hitems
      -- the position does not look at the item
      refine ⟨[.item pre post], rfl, fun other => ⟨?_, fun f missing => ?_⟩⟩
      · exact child?_of_picks (items?_sequence (pre ++ other :: post)) hposition
      · exact changeChild_sequence post hposition
  | null | bool | int | float | text =>
    rcases exists_of_child? h with ⟨name, pre, post, -, hentries, -⟩ | ⟨pre, post, hitems, -⟩
    · cases hentries
    · cases hitems

/-- The layers around the node at a concrete path are there whatever node is put in them. -/
theorem exists_layers_at {path : List Step} {tree node : Tree} (h : tree.at? path = some node) :
    ∃ layers, wrap layers node = tree ∧
      ∀ other, (wrap layers other).at? path = some other ∧
        ∀ (f : Tree → Except ε Tree) (missing : ε),
          (wrap layers other).change f missing (path.map Step.segment) =
            (f other).map (wrap layers) := by
  induction path generalizing tree with
  | nil =>
    obtain rfl : tree = node := by simpa using h
    refine ⟨[], rfl, fun other => ⟨at?_nil other, fun f missing => ?_⟩⟩
    show f other = (f other).map id
    cases f other <;> rfl
  | cons step rest ih =>
    rw [at?_cons] at h
    obtain ⟨child, hchild, hrest⟩ := Option.bind_eq_some_iff.1 h
    obtain ⟨outer, rfl, houter⟩ := exists_layers_step (ε := ε) hchild
    obtain ⟨inner, rfl, hinner⟩ := ih hrest
    refine ⟨outer ++ inner, wrap_append outer inner node, fun other => ⟨?_, fun f missing => ?_⟩⟩
    · rw [wrap_append, at?_cons, (houter _).1, Option.bind_some, (hinner other).1]
    · rw [wrap_append, List.map_cons, change_cons, (houter _).2, (hinner other).2]
      cases f other with
      | error e => rfl
      | ok new => exact congrArg Except.ok (wrap_append outer inner new).symm

end OperatorBundle.Tree
