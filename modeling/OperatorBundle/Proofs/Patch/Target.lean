import OperatorBundle.Proofs.Locator.Path
import OperatorBundle.Proofs.Patch.Run

/-!
What an applied operation leaves alone. Its target is a concrete path of the tree that it finds. It
changes the parent at the last step only, renews one value or item of each collection above, and
creates none; where it drops an item, those behind it move up by one.
-/

namespace OperatorBundle

namespace Tree

/-! ### The parent of a target -/

/-- What becomes of a collection at one step, which may drop what stands there: a value or an item
gives way to another, a key comes last, or an entry or item is dropped. -/
inductive Edited : Bool → Step → Tree → Tree → Prop
  | renewed {step : Step} {tree changed old new : Tree} (h : Renewed step tree changed old new) :
    Edited false step tree changed
  | added {name : String} {tree changed value : Tree} {entries : List Entry}
      (hold : tree.entries? = some entries) (hnone : lookup? name entries = none)
      (hnew : changed.entries? = some (entries ++ [(.text name, value)])) :
    Edited false (.key name) tree changed
  | keyDropped {name : String} {tree changed : Tree} {entries : List Entry}
      (hold : tree.entries? = some entries) (hnew : changed.entries? = some (erase name entries)) :
    Edited true (.key name) tree changed
  | itemDropped {position : Nat} {tree changed : Tree} {items : List Tree}
      (hold : tree.items? = some items) (hnew : changed.items? = some (items.eraseIdx position)) :
    Edited true (.index position) tree changed

/-- Where a path leads once what is at another is dropped: an item behind a dropped one is one
position nearer the front. -/
def shifted : List Step → List Step → List Step
  | [.index dropped], .index position :: below =>
    .index (if dropped < position then position - 1 else position) :: below
  | step :: rest, other :: below =>
    if step = other then other :: shifted rest below else other :: below
  | _, other => other

/-- Where a path leads once there is a change at another, which may drop what stands there. -/
def moved (drops : Bool) (path other : List Step) : List Step :=
  if drops then shifted path other else other

theorem shifted_cons {step : Step} {rest : List Step} (hrest : rest ≠ []) (other : Step)
    (below : List Step) :
    shifted (step :: rest) (other :: below) =
      if step = other then other :: shifted rest below else other :: below := by
  rw [shifted]
  rintro dropped position - hnil
  exact absurd hnil hrest

/-- Below a step that both paths take. -/
theorem moved_cons {rest : List Step} (hrest : rest ≠ []) (drops : Bool) (step : Step)
    (below : List Step) :
    moved drops (step :: rest) (step :: below) = step :: moved drops rest below := by
  cases drops with
  | false => rfl
  | true => simp only [moved, if_true, shifted_cons hrest]

/-- Beside a step that leads further down. -/
theorem moved_of_ne {step other : Step} {rest : List Step} (hrest : rest ≠ []) (hne : other ≠ step)
    (drops : Bool) (below : List Step) :
    moved drops (step :: rest) (other :: below) = other :: below := by
  cases drops with
  | false => rfl
  | true => simp only [moved, if_true, shifted_cons hrest, if_neg hne.symm]

theorem at?_congr {tree changed : Tree} {step other : Step}
    (h : changed.child? step.segment = tree.child? other.segment) (below : List Step) :
    changed.at? (step :: below) = tree.at? (other :: below) := by
  rw [at?_cons, at?_cons, h]

/-- The items beside a dropped one. -/
theorem getElem?_eraseIdx_of_ne {items : List Tree} {position dropped : Nat}
    (hne : position ≠ dropped) :
    (items.eraseIdx dropped)[if dropped < position then position - 1 else position]? =
      items[position]? := by
  rcases Nat.lt_or_gt_of_ne hne with hlt | hgt
  · rw [if_neg (by omega), List.getElem?_eraseIdx, if_pos hlt]
  · rw [if_pos hgt, List.getElem?_eraseIdx, if_neg (by omega), Nat.sub_add_cancel (by omega)]

/-- All beside the step stays, but for the items behind a dropped one, which move. -/
theorem Edited.at? {drops : Bool} {step other : Step} {tree changed : Tree}
    (h : Edited drops step tree changed) (hne : other ≠ step) (below : List Step) :
    changed.at? (moved drops [step] (other :: below)) = tree.at? (other :: below) := by
  cases h with
  | renewed h => exact at?_congr (h.child?_of_ne hne) below
  | @added name _ _ value entries hold hnone hnew =>
    rw [← insert_of_none hnone] at hnew
    refine at?_congr (child?_of_entries? hold hnew ?_) below
    rintro field rfl
    exact lookup?_insert_of_ne (fun h => hne (by rw [h])) value entries
  | @keyDropped name _ _ entries hold hnew =>
    have hmoved : moved true [.key name] (other :: below) = other :: below := by
      cases other <;> simp [moved, shifted]
    rw [hmoved]
    refine at?_congr (child?_of_entries? hold hnew ?_) below
    rintro field rfl
    exact lookup?_erase_of_ne (fun h => hne (by rw [h])) entries
  | @itemDropped dropped _ _ items hold hnew =>
    cases other with
    | key field =>
      have hmoved : moved true [.index dropped] (.key field :: below) = .key field :: below := by
        simp [moved, shifted]
      rw [hmoved]
      refine at?_congr ?_ below
      simp only [Step.segment, child?_key_of_items? hold, child?_key_of_items? hnew]
    | index position =>
      have hposition : position ≠ dropped := fun h => hne (by rw [h])
      refine at?_congr ?_ below
      simp only [Step.segment, child?, hold, hnew, Option.bind_some,
        getElem?_eraseIdx_of_ne hposition]

/-! ### Changes of entries and items -/

section Contents

variable {tree changed : Tree}

theorem entries?_of_changeEntries {change : List Entry → List Entry}
    (h : tree.changeEntries change = .ok changed) :
    ∃ entries, tree.entries? = some entries ∧ changed.entries? = some (change entries) := by
  induction tree using Tree.inductionOn generalizing changed with
  | tagged tag content ih =>
    obtain ⟨inner, hinner, rfl⟩ := map_eq_ok.1 h
    obtain ⟨entries, hold, hnew⟩ := ih hinner
    exact ⟨entries, hold, hnew⟩
  | mapping entries =>
    obtain rfl := Except.ok.inj h
    exact ⟨entries, rfl, rfl⟩
  | null | bool | int | float | text | sequence => cases h

theorem tags_of_changeEntries {change : List Entry → List Entry}
    (h : tree.changeEntries change = .ok changed) : changed.tags = tree.tags := by
  induction tree using Tree.inductionOn generalizing changed with
  | tagged tag content ih =>
    obtain ⟨inner, hinner, rfl⟩ := map_eq_ok.1 h
    rw [tags, tags, ih hinner]
  | mapping entries =>
    obtain rfl := Except.ok.inj h
    rfl
  | null | bool | int | float | text | sequence => cases h

theorem tags_of_changeItems {change : List Tree → List Tree}
    (h : tree.changeItems change = .ok changed) : changed.tags = tree.tags := by
  induction tree using Tree.inductionOn generalizing changed with
  | tagged tag content ih =>
    obtain ⟨inner, hinner, rfl⟩ := map_eq_ok.1 h
    rw [tags, tags, ih hinner]
  | sequence items =>
    obtain rfl := Except.ok.inj h
    rfl
  | null | bool | int | float | text | mapping => cases h

theorem edited_of_insert {name : String} {value : Tree}
    (h : tree.changeEntries (insert name value) = .ok changed) :
    Edited false (.key name) tree changed := by
  obtain ⟨entries, hold, hnew⟩ := entries?_of_changeEntries h
  cases hlookup : lookup? name entries with
  | none =>
    rw [insert_of_none hlookup] at hnew
    exact .added hold hlookup hnew
  | some old =>
    obtain ⟨pre, post, rfl, hpre⟩ := exists_of_lookup? hlookup
    rw [insert_append old value post hpre] at hnew
    exact .renewed (.value hold hnew hpre)

end Contents

end Tree

/-! ### Actions -/

namespace Action

variable {action : Action} {last : Segment} {parent changed : Tree}

/-- Whether an action drops what is at its target. -/
def removes : Action → Bool
  | .remove => true
  | _ => false

theorem edited_of_changeChild {f : Tree → Except Failure Tree}
    {failure : Failure} (h : parent.changeChild f failure last = .ok changed) :
    ∃ step, parent.step? last = some step ∧ Tree.Edited false step parent changed := by
  obtain ⟨step, old, new, hstep, -, -, hrenewed⟩ := Tree.exists_renewed_of_changeChild h
  exact ⟨step, hstep, .renewed hrenewed⟩

/-- An action keeps the tags of the parent of its target. -/
theorem tags_of_onParent (h : action.onParent last parent = .ok changed) :
    changed.tags = parent.tags := by
  cases action with
  | set value =>
    cases last with
    | key name => exact Tree.tags_of_changeEntries h
    | index | find => exact Tree.tags_of_changeChild h
  | remove =>
    cases last with
    | key name => exact Tree.tags_of_changeEntries h
    | index | find => exact Tree.tags_of_changeItems h
  | replace | setEntries => exact Tree.tags_of_changeChild h

/-- A removal takes nothing from a parent in which there is nothing at its target. -/
theorem eq_of_onParent_removes (hremoves : action.removes)
    (h : action.onParent last parent = .ok changed) (hnone : parent.child? last = none) :
    changed = parent := by
  refine Tree.eq_of_untagged (tags_of_onParent h) ?_
  obtain rfl : action = .remove := by
    cases action with
    | remove => rfl
    | set | replace | setEntries => cases hremoves
  cases last with
  | key name =>
    obtain ⟨entries, hold, hnew⟩ := Tree.entries?_of_changeEntries h
    rw [Tree.child?, Tree.field?, hold, Option.bind_some] at hnone
    rw [Tree.untagged_of_entries? hnew, Tree.untagged_of_entries? hold, Tree.erase_self hnone]
  | index position =>
    obtain ⟨items, hold, hnew⟩ := Tree.items?_of_changeItems h
    rw [Tree.child?, hold, Option.bind_some, List.getElem?_eq_none_iff] at hnone
    rw [Tree.untagged_of_items? hnew, Tree.untagged_of_items? hold,
      List.eraseIdx_of_length_le hnone]
  | find selector =>
    obtain ⟨items, hold, hnew⟩ := Tree.items?_of_changeItems h
    rw [Tree.child?, hold, Option.bind_some, List.find?_eq_none] at hnone
    rw [Tree.untagged_of_items? hnew, Tree.untagged_of_items? hold,
      List.eraseP_of_forall_not hnone]

/-- An action changes the parent of its target at one step, or removes nothing from it. -/
theorem onParent_cases (h : action.onParent last parent = .ok changed) :
    (∃ step, parent.step? last = some step ∧ Tree.Edited action.removes step parent changed) ∨
      (parent.step? last = none ∧ action.removes ∧ parent.child? last = none) := by
  cases action with
  | set value =>
    cases last with
    | key name => exact .inl ⟨.key name, rfl, Tree.edited_of_insert h⟩
    | index | find => exact .inl (edited_of_changeChild h)
  | replace | setEntries => exact .inl (edited_of_changeChild h)
  | remove =>
    cases last with
    | key name =>
      obtain ⟨entries, hold, hnew⟩ := Tree.entries?_of_changeEntries h
      exact .inl ⟨.key name, rfl, .keyDropped hold hnew⟩
    | index position =>
      obtain ⟨items, hold, hnew⟩ := Tree.items?_of_changeItems h
      exact .inl ⟨.index position, rfl, .itemDropped hold hnew⟩
    | find selector =>
      obtain ⟨items, hold, hnew⟩ := Tree.items?_of_changeItems h
      rw [List.eraseP_eq_eraseIdx] at hnew
      simp only [Tree.step?, Tree.child?, hold, Option.bind_some]
      cases hposition : items.findIdx? selector.accepts with
      | none =>
        refine .inr ⟨rfl, rfl, List.find?_eq_none.2 fun item hitem => ?_⟩
        simpa using List.findIdx?_eq_none_iff.1 hposition item hitem
      | some position =>
        rw [hposition] at hnew
        exact .inl ⟨.index position, rfl, .itemDropped hold hnew⟩

end Action

/-! ### Operations -/

namespace Tree

/-- Trees that differ at a concrete path only, where what stands there may have been dropped. -/
structure ChangedOnlyAt (path : List Step) (drops : Bool) (tree changed : Tree) : Prop where
  /-- All that is neither above nor below the path stays, but for items that move up. -/
  beside : ∀ other, ¬ other <+: path → ¬ path <+: other →
    changed.at? (moved drops path other) = tree.at? other
  /-- The collections further up keep their tags and all entries and items but one. -/
  above : ∀ first step rest, path = first ++ step :: rest → rest ≠ [] →
    ∃ n m old new, tree.at? first = some n ∧ changed.at? first = some m ∧ m.tags = n.tags ∧
      Renewed step n m old new
  /-- The parent keeps its tags and is changed at the last step only. -/
  parent : ∀ first step, path = first ++ [step] →
    ∃ n m, tree.at? first = some n ∧ changed.at? first = some m ∧ m.tags = n.tags ∧
      Edited drops step n m

namespace Between

variable {path : List Step} {step : Step} {tree changed node next : Tree} {drops : Bool}

theorem at?_moved (h : Between path tree changed node next) (hedited : Edited drops step node next)
    {other : List Step} (habove : ¬ other <+: path ++ [step])
    (hbelow : ¬ path ++ [step] <+: other) :
    changed.at? (moved drops (path ++ [step]) other) = tree.at? other := by
  induction h generalizing other with
  | here node next =>
    cases other with
    | nil => exact absurd List.nil_prefix habove
    | cons first below =>
      refine hedited.at? ?_ below
      rintro rfl
      exact hbelow (List.prefix_append [first] below)
  | @within first rest tree changed old new node next htags hrenewed h ih =>
    have hrest : rest ++ [step] ≠ [] := by simp
    cases other with
    | nil => exact absurd List.nil_prefix habove
    | cons second below =>
      rw [List.cons_append] at habove hbelow ⊢
      by_cases hsame : second = first
      · subst hsame
        rw [moved_cons hrest, at?_cons, at?_cons, hrenewed.child?.1, hrenewed.child?.2]
        exact ih hedited (fun h => habove ((List.prefix_cons_inj second).2 h))
          fun h => hbelow ((List.prefix_cons_inj second).2 h)
      · rw [moved_of_ne hrest hsame]
        exact at?_congr (hrenewed.child?_of_ne hsame) below

/-- Where the node at the end of a path is edited, nothing changes but at that step. -/
theorem changedOnlyAt (h : Between path tree changed node next) (htags : next.tags = node.tags)
    (hedited : Edited drops step node next) :
    ChangedOnlyAt (path ++ [step]) drops tree changed where
  beside _ habove hbelow := h.at?_moved hedited habove hbelow
  above first second rest hpath hrest := by
    -- the last step is that of the parent
    obtain rfl | ⟨more, last, rfl⟩ := List.eq_nil_or_concat' rest
    · exact absurd rfl hrest
    rw [← List.cons_append, ← List.append_assoc] at hpath
    obtain ⟨rfl, -⟩ := List.append_inj' hpath rfl
    exact h.exists_of_append
  parent first second hpath := by
    obtain ⟨rfl, hlast⟩ := List.append_inj' hpath rfl
    obtain ⟨rfl, -⟩ := List.cons.inj hlast
    exact ⟨node, next, h.at?.1, h.at?.2, htags, hedited⟩

end Between

end Tree

namespace Operation

variable {operation : Operation} {tree changed : Tree}

/-- What an operation that is applied does: it finds the parent of its target, changes the tree at
the concrete path of the target only, and leaves the tree as it is if there is nothing to remove. A
sequence in which entries are set keeps its tags and its length. -/
structure Confined (operation : Operation) (tree changed : Tree) : Prop where
  exists_parent : ∃ path last parent, operation.target.segments = path ++ [last] ∧
    tree.resolve? path = some parent
  changedOnlyAt : ∀ path, tree.concrete? operation.target.segments = some path →
    Tree.ChangedOnlyAt path operation.action.removes tree changed
  absent_of_none : tree.concrete? operation.target.segments = none →
    operation.action.removes ∧ tree.resolve? operation.target.segments = none
  eq_of_absent : operation.action.removes → tree.resolve? operation.target.segments = none →
    changed = tree
  items_of_setEntries : ∀ keyField valueField values path,
    operation.action = .setEntries keyField valueField values →
    tree.concrete? operation.target.segments = some path →
    ∃ n m items, tree.at? path = some n ∧ changed.at? path = some m ∧ m.tags = n.tags ∧
      n.items? = some items ∧
      m.items? = some (items.map (Tree.withNamedValue keyField valueField values))

/-- The parent of the target of an operation that is applied, and what becomes of it. -/
theorem exists_parent_of_act (h : operation.act tree = .ok changed) :
    ∃ path last steps parent next, operation.target.segments = path ++ [last] ∧
      tree.resolve? path = some parent ∧
      tree.resolve? operation.target.segments = parent.child? last ∧
      tree.concrete? operation.target.segments =
        (parent.step? last).map (fun step => steps ++ [step]) ∧
      operation.action.onParent last parent = .ok next ∧
      Tree.Between steps tree changed parent next := by
  obtain ⟨⟨segments⟩, action, guard⟩ := operation
  rcases List.eq_nil_or_concat' segments with rfl | ⟨path, last, rfl⟩
  · cases h
  rw [act_of_segments rfl] at h
  obtain ⟨steps, parent, next, hsteps, hparent, hnext, hbetween⟩ :=
    Tree.exists_between_of_change h
  refine ⟨path, last, steps, parent, next, rfl, hparent, ?_, ?_, hnext, hbetween⟩
  · rw [Tree.resolve?_append, hparent, Option.bind_some, Tree.resolve?_singleton]
  · rw [Tree.concrete?_append last hparent, hsteps, Option.bind_some]

theorem confined_of_act (h : operation.act tree = .ok changed) :
    operation.Confined tree changed := by
  obtain ⟨path, last, steps, parent, next, hsegments, hparent, hresolve, hconcrete, hnext,
    hbetween⟩ := exists_parent_of_act h
  have htags := Action.tags_of_onParent hnext
  refine ⟨⟨path, last, parent, hsegments, hparent⟩, ?_, ?_, ?_, ?_⟩
  · intro place hplace
    obtain ⟨step, hstep, rfl⟩ := Option.map_eq_some_iff.1 (hconcrete.symm.trans hplace)
    rcases Action.onParent_cases hnext with ⟨found, hfound, hedited⟩ | ⟨hnone, -⟩
    · obtain rfl := Option.some.inj (hstep.symm.trans hfound)
      exact hbetween.changedOnlyAt htags hedited
    · rw [hstep] at hnone
      cases hnone
  · intro hnone
    rcases Action.onParent_cases hnext with ⟨step, hstep, -⟩ | ⟨-, hremoves, habsent⟩
    · rw [hconcrete, hstep] at hnone
      cases hnone
    · exact ⟨hremoves, hresolve.trans habsent⟩
  · intro hremoves habsent
    exact hbetween.eq (Action.eq_of_onParent_removes hremoves hnext (hresolve.symm.trans habsent))
  · intro keyField valueField values place haction hplace
    obtain ⟨step, hstep, rfl⟩ := Option.map_eq_some_iff.1 (hconcrete.symm.trans hplace)
    rw [haction] at hnext
    obtain ⟨found, old, new, hfound, -, hset, hrenewed⟩ :=
      Tree.exists_renewed_of_changeChild hnext
    obtain rfl := Option.some.inj (hstep.symm.trans hfound)
    obtain ⟨items, hold, hnew⟩ := Tree.items?_of_changeItems hset
    refine ⟨old, new, items, ?_, ?_, Tree.tags_of_changeItems hset, hold, hnew⟩
    · rw [Tree.at?_append_singleton, hbetween.at?.1, Option.bind_some, hrenewed.child?.1]
    · rw [Tree.at?_append_singleton, hbetween.at?.2, Option.bind_some, hrenewed.child?.2]

end Operation

/-! ### Runs -/

/-- **Only what the locator names changes**: an operation that a run records as applied changes the
tree that the operations before it left at the concrete path of its target only. For a run that ends
early this tells of the operations before the one that fails. -/
theorem confined_of_applied {policy : Policy} {operations : List Operation} {tree after : Tree}
    {report : Report} {i : Nat} {operation : Operation} {record : Record}
    (h : applyPatch policy operations tree = ⟨after, .ok report⟩)
    (hoperation : operations[i]? = some operation) (hrecord : report.records[i]? = some record)
    (happlied : record.outcome = .applied) :
    ∃ old new,
      applyPatch policy (operations.take i) tree = ⟨old, .ok ⟨report.records.take i⟩⟩ ∧
      applyPatch policy (operations.take (i + 1)) tree =
        ⟨new, .ok ⟨report.records.take (i + 1)⟩⟩ ∧
      operation.Confined old new := by
  obtain ⟨old, new, hbefore, hrun, hnext⟩ :=
    (applyPatch_eq_ok.1 h).exists_step hoperation hrecord
  refine ⟨old, new, applyPatch_eq_ok.2 hbefore, applyPatch_eq_ok.2 hnext, ?_⟩
  rcases Operation.run_cases hrun with ⟨hact, -⟩ | ⟨-, hskipped⟩
  · exact Operation.confined_of_act hact
  · exact absurd happlied hskipped

/-- Three settings in a sequence with a tag. -/
def settingsList : Tree :=
  let setting (name : String) := Tree.mapping [(.text "name", .text name)]
  .mapping [(.text "env", .tagged "list" (.sequence [setting "A", setting "B", setting "C"])),
    (.text "image", .text "none")]

/-- The second setting gets a value, and the first is dropped. -/
def settingsPatch : List Operation :=
  let named (name : String) : Segment := .find ⟨"name", .equals name⟩
  [.setText ⟨[.key "env", named "B", .key "value"]⟩ "x", .remove ⟨[.key "env", named "A"]⟩]

theorem confined_of_settingsPatch :
    ∃ old new, Tree.ChangedOnlyAt [.key "env", .index 0] true old new ∧
      new.at? [.key "env", .index 0, .key "value"] = some (.text "x") := by
  have hrun : applyPatch .fail settingsPatch settingsList = ⟨_, .ok _⟩ := rfl
  obtain ⟨old, new, hold, -, hconfined⟩ :=
    confined_of_applied hrun (show settingsPatch[1]? = some _ from rfl) rfl rfl
  obtain ⟨rfl, -⟩ := PatchRun.mk.inj hold
  have hchanged := hconfined.changedOnlyAt [.key "env", .index 0] rfl
  -- the second setting moves up
  have hbeside := hchanged.beside [.key "env", .index 1, .key "value"] (by decide) (by decide)
  exact ⟨_, new, hchanged, hbeside⟩

end OperatorBundle
