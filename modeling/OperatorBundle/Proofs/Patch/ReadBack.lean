import OperatorBundle.Proofs.Patch.Target

/-!
Values that are set, read back through their own locators. The conditions on the way are evaluated
again on the new tree. What is written stands below the field that a condition looks at only if it
is the value of that very field, since the field holds a string and a string has nothing below it.
So a condition can stop to hold in one case only: the last segment is the field of the condition
right before it, and the value is not accepted there.

* `changed_of_set`: the conditions on the way pick the same items before and after.
* `set_read_back`: the value is found at its locator, and to set it again changes nothing.
-/

namespace OperatorBundle

/-! ### Places -/

/-- The places at which a value can be read back, by the segments above and the last one. A value
under the field that the condition right above looks at has to be accepted by the condition, and so
has an item that a condition picks. -/
inductive Tree.Retrievable (value : Tree) : List Segment → Segment → Prop
  | index (path : List Segment) (position : Nat) : Retrievable value path (.index position)
  | key {path : List Segment} {name : String}
      (h : ∀ above selector, path = above ++ [.find selector] → selector.field ≠ name) :
    Retrievable value path (.key name)
  | field {above : List Segment} {selector : Selector} {text : String}
      (htext : value.text? = some text) (haccepts : selector.matcher.accepts text) :
    Retrievable value (above ++ [.find selector]) (.key selector.field)
  | find {path : List Segment} {selector : Selector} (h : selector.accepts value) :
    Retrievable value path (.find selector)

namespace Tree.Retrievable

variable {value : Tree} {segment last : Segment} {path : List Segment}

/-- The places below the first segment. -/
theorem tail (h : value.Retrievable (segment :: path) last) : value.Retrievable path last := by
  generalize hpath : segment :: path = whole at h
  cases h with
  | index _ position => exact .index path position
  | key h =>
    refine .key fun above selector habove => h (segment :: above) selector ?_
    rw [← hpath, habove, List.cons_append]
  | @field above selector text htext haccepts =>
    cases above with
    | nil =>
      obtain ⟨-, rfl⟩ := List.cons.inj hpath
      refine .key fun above _ habove => ?_
      simp at habove
    | cons first above =>
      obtain ⟨-, rfl⟩ := List.cons.inj hpath
      exact .field htext haccepts
  | find h => exact .find h

theorem of_suffix {rest : List Segment} (h : value.Retrievable path last) (hsuffix : rest <:+ path) :
    value.Retrievable rest last := by
  obtain ⟨above, rfl⟩ := hsuffix
  induction above with
  | nil => exact h
  | cons segment above ih => exact ih h.tail

end Tree.Retrievable

/-! ### What is set -/

namespace Action

variable {value parent changed : Tree} {last : Segment} {path : List Segment}

/-- The value stands at the last segment, and to set it again changes nothing. -/
theorem child?_of_set (hplace : value.Retrievable path last)
    (h : (Action.set value).onParent last parent = .ok changed) :
    changed.child? last = some value ∧ (Action.set value).onParent last changed = .ok changed := by
  -- where the last segment picks an item, it picks the value that takes its place
  have hitem (hpicks : ∀ pre old, last.picks pre old → last.picks pre value)
      (hset : ∀ node, (Action.set value).onParent last node =
        node.changeChild (fun _ => .ok value) .missing last)
      (hkey : ∀ name, last ≠ .key name) :
      changed.child? last = some value ∧
        (Action.set value).onParent last changed = .ok changed := by
    rw [hset] at h ⊢
    generalize hlast : last = segment at h
    cases Tree.childChanged h with
    | value => exact absurd hlast (hkey _)
    | item hold hnew hold' hvalue =>
      obtain rfl := Except.ok.inj hvalue
      subst hlast
      have hchild := Tree.child?_of_picks hnew (hpicks _ _ hold')
      obtain ⟨layers, hlayers, hchange⟩ := Tree.exists_layers (ε := Failure) hchild
      refine ⟨hchild, ?_⟩
      rw [hchange, ← hlayers]
      rfl
  cases hplace with
  | index _ position => exact hitem (fun _ _ h => h) (fun _ => rfl) (fun _ => by simp)
  | find haccepts =>
    exact hitem (fun _ _ h => ⟨haccepts, h.2⟩) (fun _ => rfl) (fun _ => by simp)
  | key | field =>
    have hvalue := eq_of_set_onSpot (onParent_eq_ok h).1
    refine ⟨?_, ?_⟩
    · rw [Tree.child?, ← Tree.value?_spotAt, hvalue, Spot.value?]
    · rw [onParent_eq, hvalue]
      show Except.ok (changed.withSpot _ (.holds value)) = _
      rw [← hvalue, Tree.withSpot_self]

/-- Nothing can be set in a string. -/
theorem text?_of_set (h : (Action.set value).onParent last parent = .ok changed) :
    parent.text? = none := by
  by_contra htext
  obtain ⟨text, htext⟩ := Option.ne_none_iff_exists'.1 htext
  cases last with
  | key name =>
    obtain ⟨entries, hentries, -⟩ := Tree.entries?_of_changeEntries h
    rw [Tree.entries?_of_text? htext] at hentries
    cases hentries
  | index | find =>
    rw [onParent, Tree.changeChild_of_none (Tree.child?_of_text? htext _)] at h
    · cases h
    · simp

end Action

namespace Tree

variable {value tree changed item : Tree} {last : Segment} {path : List Segment}

/-- An item in which a value is set stays accepted. -/
theorem accepts_of_set {selector : Selector} (haccepts : selector.accepts item)
    (hplace : value.Retrievable [.find selector] last)
    (hset : (Action.set value).onParent last item = .ok changed) : selector.accepts changed := by
  cases last with
  | key name =>
    by_cases hname : selector.field = name
    · -- the value takes the place of the text that was accepted
      obtain ⟨hvalue, -⟩ := Action.child?_of_set hplace.tail hset
      generalize hwhole : [Segment.find selector] = whole at hplace
      cases hplace with
      | key hother => exact absurd hname (hother [] selector hwhole.symm)
      | @field above other text htext haccepts =>
        obtain rfl : above = [] := by
          cases above with
          | nil => rfl
          | cons first above => simp at hwhole
        obtain rfl : selector = other := by simpa using hwhole
        exact Selector.accepts_iff.2 ⟨value, text, hvalue, htext, haccepts⟩
    · rwa [(Action.onParent_eq_ok hset).2.accepts hname]
  | index | find =>
    -- a mapping has no items
    have hitems := Selector.items?_of_accepts haccepts
    rw [Action.onParent, changeChild_of_none (by rw [child?, hitems, Option.bind_none])] at hset
    · cases hset
    · simp

/-- **The conditions on the way to a value that is set pick the same items** before and after. -/
theorem changed_of_set (hplace : value.Retrievable path last)
    (h : tree.change ((Action.set value).onParent last) .missing path = .ok changed) :
    Changed (fun n m => (Action.set value).onParent last n = .ok m) path tree changed := by
  refine changed_of_accepts (fun selector rest hsuffix item other haccepts hchange => ?_) h
  cases rest with
  | nil => exact accepts_of_set haccepts (hplace.of_suffix hsuffix) hchange
  | cons segment rest =>
    refine accepts_of_change haccepts (fun _ node text htext changed => ?_) hchange
    exact not_change_of_text? (fun _ _ => Action.text?_of_set) htext

end Tree

/-- **A value that is set can be read back through its own locator**, and to set it again is applied
and changes nothing, under either policy. This holds whatever conditions there are on the way and
whatever other items satisfy them, except where the value takes the place of the text by which its
own parent was found and is not accepted there. -/
theorem set_read_back {policy : Policy} {target : Locator} {path : List Segment} {last : Segment}
    {value tree changed : Tree} {record : Record} (htarget : target.segments = path ++ [last])
    (hplace : value.Retrievable path last)
    (hrun : (Operation.set target value).run policy tree = .ok (changed, record))
    (happlied : record.outcome = .applied) :
    changed.resolve? target.segments = some value ∧
      ∀ later : Policy, (Operation.set target value).run later changed = .ok (changed, record) := by
  rcases (Operation.run_eq_ok rfl).1 hrun with ⟨hact, hrecord⟩ | ⟨-, -, -, rfl⟩
  · rw [Operation.act_of_segments htarget] at hact
    obtain ⟨parent, next, -, hnext, hset⟩ := (Tree.changed_of_set hplace hact).exists_leaf
    obtain ⟨hchild, hagain⟩ := Action.child?_of_set hplace hset
    obtain ⟨layers, hlayers, hchange⟩ := Tree.exists_layers_path (ε := Failure) hnext
    constructor
    · rw [htarget, Tree.resolve?_append, hnext, Option.bind_some, Tree.resolve?_singleton, hchild]
    · intro later
      refine (Operation.run_eq_ok rfl).2 (.inl ⟨?_, hrecord⟩)
      rw [Operation.act_of_segments htarget, hchange]
      show Except.map _ ((Action.set value).onParent last next) = _
      rw [hagain, ← hlayers]
      rfl
  · cases happlied

/-- Two deployments whose names contain the same word. -/
def twoDeployments : Tree :=
  let deployment (name : String) := Tree.mapping [(.text "name", .text name)]
  .mapping [(.text "deployments", .sequence [deployment "a-quay", deployment "b-quay"])]

/-- The name of the first deployment that has the word in its name. -/
def quayDeploymentName : Locator :=
  ⟨[.key "deployments", .find ⟨"name", .contains "quay"⟩, .key "name"]⟩

theorem set_read_back_deployment_name :
    ∃ changed record,
      (Operation.set quayDeploymentName (.text "c-quay")).run .fail twoDeployments =
        .ok (changed, record) ∧
      changed.resolve? quayDeploymentName.segments = some (.text "c-quay") ∧
      ∀ later : Policy, (Operation.set quayDeploymentName (.text "c-quay")).run later changed =
        .ok (changed, record) := by
  have hrun : (Operation.set quayDeploymentName (.text "c-quay")).run .fail twoDeployments =
      .ok (_, _) := rfl
  have hplace : (Tree.text "c-quay").Retrievable
      ([.key "deployments"] ++ [.find ⟨"name", .contains "quay"⟩]) (.key "name") :=
    .field rfl (by decide)
  exact ⟨_, _, hrun, set_read_back rfl hplace hrun rfl⟩

/-- A name without the word is not found again: the locator leads to the other deployment. -/
example :
    ((Operation.setText quayDeploymentName "clair").run .fail twoDeployments).map
      (fun out => out.1.resolve? quayDeploymentName.segments) = .ok (some (.text "b-quay")) := rfl

end OperatorBundle
