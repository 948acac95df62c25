import OperatorBundle.Proofs.Locator.Path

/-!
Looking at a node and changing it. The two ways to follow a locator are told apart by what they do
at its end only: both take the same walk, which is stated here on its own, on the content below the
tags of each node on the way.

* `Walk`: where segments lead, with the concrete path that they take.
* `Walk.unique`: there is one walk at most.
* `walkers_agree`: both find a node or none does; it is the one at the end of the walk, and a value
  that is put there takes the place of that node alone.
-/

namespace OperatorBundle.Tree

/-! ### Walks -/

/-- What a segment picks in a node, and the step there. A key picks the value of the first entry
with its name, a position the item that stands there, and a condition the first item that it
accepts. -/
inductive Picks (tree : Tree) : Segment → Step → Tree → Prop
  | value {name : String} {pre post : List Entry} {child : Tree}
      (hentries : tree.untagged = .mapping (pre ++ (.text name, child) :: post))
      (hpre : ∀ e ∈ pre, e.1 ≠ .text name) :
    Picks tree (.key name) (.key name) child
  | position {pre post : List Tree} {child : Tree}
      (hitems : tree.untagged = .sequence (pre ++ child :: post)) :
    Picks tree (.index pre.length) (.index pre.length) child
  | first {selector : Selector} {pre post : List Tree} {child : Tree}
      (hitems : tree.untagged = .sequence (pre ++ child :: post))
      (haccepts : selector.accepts child) (hpre : ∀ t ∈ pre, selector.accepts t = false) :
    Picks tree (.find selector) (.index pre.length) child

/-- A walk along segments, with the concrete path that it takes and the node at its end. -/
inductive Walk : List Segment → Tree → List Step → Tree → Prop
  | here (node : Tree) : Walk [] node [] node
  | onward {segment : Segment} {rest : List Segment} {step : Step} {steps : List Step}
      {tree child node : Tree} (hpicks : Picks tree segment step child)
      (h : Walk rest child steps node) :
    Walk (segment :: rest) tree (step :: steps) node

variable {tree child node : Tree} {segment : Segment} {step : Step} {path : List Segment}
  {steps : List Step}

/-- The entries and items of a node are those below its tags. -/
theorem entries?_of_untagged {entries : List Entry} (h : tree.untagged = .mapping entries) :
    tree.entries? = some entries := by
  induction tree using Tree.inductionOn with
  | tagged tag content ih => exact ih h
  | mapping => exact congrArg some (Tree.mapping.inj h)
  | null | bool | int | float | text | sequence => cases h

theorem items?_of_untagged {items : List Tree} (h : tree.untagged = .sequence items) :
    tree.items? = some items := by
  induction tree using Tree.inductionOn with
  | tagged tag content ih => exact ih h
  | sequence => exact congrArg some (Tree.sequence.inj h)
  | null | bool | int | float | text | mapping => cases h

/-! ### One step -/

namespace Picks

/-- Who looks goes where a segment picks. -/
theorem child? (h : tree.Picks segment step child) : tree.child? segment = some child := by
  cases h with
  | @value name pre post _ hentries hpre =>
    rw [Tree.child?, field?, entries?_of_untagged hentries, Option.bind_some]
    refine lookup?_append child post fun e he => ?_
    rw [Bool.eq_false_iff, ne_eq, isName_iff]
    exact hpre e he
  | position hitems => exact child?_of_picks (items?_of_untagged hitems) rfl
  | first hitems haccepts hpre =>
    exact child?_of_picks (items?_of_untagged hitems) ⟨haccepts, hpre⟩

/-- The step is the one that the concrete path of a locator takes. -/
theorem step? (h : tree.Picks segment step child) : tree.step? segment = some step := by
  cases h with
  | value => rfl
  | position => rfl
  | first hitems haccepts hpre =>
    exact step?_of_picks (items?_of_untagged hitems) ⟨haccepts, hpre⟩

end Picks

/-- Who looks finds a child only where a segment picks one. -/
theorem exists_picks (h : tree.child? segment = some child) :
    ∃ step, tree.Picks segment step child := by
  rcases exists_of_child? h with
    ⟨name, pre, post, rfl, hentries, hpre⟩ | ⟨pre, post, hitems, hpicks⟩
  · refine ⟨.key name, .value (untagged_of_entries? hentries) fun e he hkey => ?_⟩
    have hname := hpre e he
    rw [isName_iff.2 hkey] at hname
    cases hname
  · have huntagged := untagged_of_items? hitems
    cases segment with
    | key name => cases hpicks
    | index position =>
      obtain rfl : position = pre.length := hpicks
      exact ⟨_, .position huntagged⟩
    | find selector => exact ⟨_, .first huntagged hpicks.1 hpicks.2⟩

/-! ### Whole walks -/

namespace Walk

theorem resolve? (h : Walk path tree steps node) : tree.resolve? path = some node := by
  induction h with
  | here node => exact resolve?_nil node
  | onward hpicks _ ih => rw [resolve?_cons, hpicks.child?, Option.bind_some, ih]

theorem concrete? (h : Walk path tree steps node) : tree.concrete? path = some steps := by
  induction h with
  | here => rfl
  | onward hpicks _ ih =>
    rw [concrete?_cons _ hpicks.child?, hpicks.step?, Option.bind_some, ih, Option.map_some]

/-- **Segments lead along one walk at most.** -/
theorem unique {others : List Step} {found : Tree} (h : Walk path tree steps node)
    (hother : Walk path tree others found) : others = steps ∧ found = node :=
  ⟨Option.some.inj (hother.concrete?.symm.trans h.concrete?),
    Option.some.inj (hother.resolve?.symm.trans h.resolve?)⟩

end Walk

/-- Who looks finds a node only at the end of a walk. -/
theorem exists_walk (h : tree.resolve? path = some node) : ∃ steps, Walk path tree steps node := by
  induction path generalizing tree with
  | nil =>
    obtain rfl : tree = node := by simpa using h
    exact ⟨[], .here tree⟩
  | cons segment rest ih =>
    rw [resolve?_cons] at h
    obtain ⟨child, hchild, hrest⟩ := Option.bind_eq_some_iff.1 h
    obtain ⟨step, hpicks⟩ := exists_picks hchild
    obtain ⟨steps, hwalk⟩ := ih hrest
    exact ⟨step :: steps, .onward hpicks hwalk⟩

/-! ### Changes at the end of a walk -/

/-- The node that a change at the end of segments is given. -/
def reached? (path : List Segment) (tree : Tree) : Option Tree :=
  match tree.change (fun node => .error (some node)) none path with
  | .error found => found
  | .ok _ => none

/-- A change that succeeds at the end of a walk is there and nowhere else. -/
theorem Walk.exists_change {ε : Type} {f : Tree → Except ε Tree} {new : Tree}
    (h : Walk path tree steps node) (hnew : f node = .ok new) (missing : ε) :
    ∃ changed, tree.change f missing path = .ok changed ∧ Between steps tree changed node new := by
  obtain ⟨layers, -, hchange⟩ := exists_layers_path (ε := ε) h.resolve?
  have hchanged : tree.change f missing path = .ok (wrap layers new) := by
    rw [hchange, hnew]
    rfl
  refine ⟨wrap layers new, hchanged, ?_⟩
  -- the walk of the change is this one, since there is no other
  obtain ⟨others, found, next, hothers, hfound, hnext, hbetween⟩ :=
    exists_between_of_change hchanged
  obtain rfl := Option.some.inj (h.concrete?.symm.trans hothers)
  obtain rfl := Option.some.inj (h.resolve?.symm.trans hfound)
  obtain rfl := Except.ok.inj (hnew.symm.trans hnext)
  exact hbetween

theorem reached?_eq_resolve? (path : List Segment) (tree : Tree) :
    reached? path tree = tree.resolve? path := by
  unfold reached?
  cases hnode : tree.resolve? path with
  | none => rw [change_of_none hnode]
  | some node =>
    obtain ⟨layers, -, hchange⟩ := exists_layers_path (ε := Option Tree) hnode
    rw [hchange]
    rfl

/-- Trees that differ at the end of a concrete path agree at all that is neither above nor below
it. -/
theorem Between.at?_of_apart {changed new : Tree} (h : Between steps tree changed node new)
    {other : List Step} (habove : ¬ other <+: steps) (hbelow : ¬ steps <+: other) :
    changed.at? other = tree.at? other := by
  induction h generalizing other with
  | here => exact absurd List.nil_prefix hbelow
  | @within step rest _ _ _ _ _ _ _ hrenewed _ ih =>
    cases other with
    | nil => exact absurd List.nil_prefix habove
    | cons next below =>
      rw [at?_cons, at?_cons]
      by_cases hsame : next = step
      · subst hsame
        rw [hrenewed.child?.1, hrenewed.child?.2]
        apply ih
        · exact fun h => habove ((List.prefix_cons_inj next).2 h)
        · exact fun h => hbelow ((List.prefix_cons_inj next).2 h)
      · rw [hrenewed.child?_of_ne hsame]

/-- **Looking and changing agree.** Segments lead nowhere, and then who looks finds nothing, a
change is given nothing and no value can be put; or there is one walk along them, and both are given
the node at its end. A value that is put then takes the place of that node and of nothing else, and
is found at the concrete path of the walk. -/
theorem walkers_agree (tree : Tree) (path : List Segment) :
    (tree.resolve? path = none ∧ reached? path tree = none ∧
      (∀ value, put? path value tree = none) ∧ ¬ ∃ steps node, Walk path tree steps node) ∨
    ∃ steps node, Walk path tree steps node ∧
      (∀ others found, Walk path tree others found → others = steps ∧ found = node) ∧
      tree.resolve? path = some node ∧ reached? path tree = some node ∧
      tree.at? steps = some node ∧
      ∀ value, ∃ changed, put? path value tree = some changed ∧
        Between steps tree changed node value ∧ changed.at? steps = some value ∧
        ∀ other, ¬ other <+: steps → ¬ steps <+: other → changed.at? other = tree.at? other := by
  cases hnode : tree.resolve? path with
  | none =>
    refine .inl ⟨rfl, ?_, fun value => ?_, ?_⟩
    · rw [reached?_eq_resolve?, hnode]
    · rw [put?, change_of_none hnode]
      rfl
    · rintro ⟨steps, node, hwalk⟩
      rw [hwalk.resolve?] at hnode
      cases hnode
  | some node =>
    obtain ⟨steps, hwalk⟩ := exists_walk hnode
    have hput (value : Tree) : ∃ changed, put? path value tree = some changed ∧
        Between steps tree changed node value := by
      obtain ⟨changed, hchange, hbetween⟩ :=
        hwalk.exists_change (ε := Unit) (f := fun _ => .ok value) rfl ()
      exact ⟨changed, by rw [put?, hchange]; rfl, hbetween⟩
    obtain ⟨_, -, hself⟩ := hput node
    refine .inr ⟨steps, node, hwalk, fun _ _ h => hwalk.unique h, rfl, ?_, hself.at?.1, ?_⟩
    · rw [reached?_eq_resolve?, hnode]
    · intro value
      obtain ⟨changed, hchanged, hbetween⟩ := hput value
      exact ⟨changed, hchanged, hbetween, hbetween.at?.2, fun _ => hbetween.at?_of_apart⟩

/-- Of two items that are equal the first is the one that is put: the node alone does not tell. -/
example :
    let item := Tree.mapping [(.text "name", .text "a")]
    (put? [.find ⟨"name", .equals "a"⟩] .null (.tagged "t" (.sequence [item, item]))).map
      (fun changed => (changed.at? [.index 0], changed.at? [.index 1])) =
        some (some .null, some item) := rfl

end OperatorBundle.Tree
