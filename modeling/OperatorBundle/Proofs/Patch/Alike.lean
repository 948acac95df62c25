import OperatorBundle.Proofs.Patch.Settled
import OperatorBundle.Proofs.Tree.Alike

/-!
Patches on trees that are alike. They end alike: with the same records, and on trees that are alike.
In particular a patch that leaves a tree as it is leaves one that is like it alike.
-/

namespace OperatorBundle

open OperatorBundle.Text

/-! ### Spots -/

/-- Spots with the same at them, but for the order of keys. -/
inductive Spot.Alike : Spot → Spot → Prop
  | nowhere : Alike .nowhere .nowhere
  | unkeyed : Alike .unkeyed .unkeyed
  | free : Alike .free .free
  | holds {v w : Tree} (h : v.Alike w) : Alike (.holds v) (.holds w)

namespace Spot.Alike

theorem symm {s t : Spot} (h : s.Alike t) : t.Alike s := by
  cases h with
  | nowhere => exact .nowhere
  | unkeyed => exact .unkeyed
  | free => exact .free
  | holds h => exact .holds h.symm

theorem trans {s t u : Spot} (hst : s.Alike t) (htu : t.Alike u) : s.Alike u := by
  cases hst with
  | nowhere | unkeyed | free => exact htu
  | holds h =>
    cases htu with
    | holds h' => exact .holds (h.trans h')

end Spot.Alike

/-- Outcomes that are alike: the same failure, or spots that are alike. -/
inductive AlikeEnd : Except Failure Spot → Except Failure Spot → Prop
  | error (failure : Failure) : AlikeEnd (.error failure) (.error failure)
  | ok {s t : Spot} (h : s.Alike t) : AlikeEnd (.ok s) (.ok t)

/-- Whether what an action puts into a document repeats no key. -/
def Action.uniqueKeys : Action → Bool
  | .set value => value.uniqueKeys
  | _ => true

namespace Tree.Alike

variable {a b v w : Tree} {name : String}

theorem spotAt (h : a.Alike b) (name : String) : (a.spotAt name).Alike (b.spotAt name) := by
  induction a using Tree.inductionOn generalizing b with
  | tagged tag content ih =>
    obtain ⟨other, rfl, hcontent⟩ := h.content
    rw [spotAt_tagged, spotAt_tagged]
    exact ih hcontent
  | mapping as =>
    cases sameForm h.same with
    | mapping _ bs _ =>
      rw [spotAt_mapping, spotAt_mapping]
      have hlookup := h.lookup? name
      revert hlookup
      generalize Tree.lookup? name as = x
      generalize Tree.lookup? name bs = y
      rintro (hvalue | _)
      · exact .holds hvalue
      · exact .free
  | null | bool | int | float | text | sequence =>
    cases sameForm h.same
    exact .unkeyed

theorem spot (h : a.Alike b) (path : List Segment) (name : String) :
    (a.spot path name).Alike (b.spot path name) := by
  unfold Tree.spot
  have hnode := h.resolve? path
  revert hnode
  generalize a.resolve? path = x
  generalize b.resolve? path = y
  rintro (hnode | _)
  · exact hnode.spotAt name
  · exact .nowhere

/-- Alike values put at a key leave nodes alike. -/
theorem withSpot (h : a.Alike b) (hvalue : v.Alike w) (name : String) :
    (a.withSpot name (.holds v)).Alike (b.withSpot name (.holds w)) := by
  induction a using Tree.inductionOn generalizing b with
  | tagged tag content ih =>
    obtain ⟨other, rfl, hcontent⟩ := h.content
    exact (ih hcontent).tagged tag
  | mapping as =>
    cases sameForm h.same with
    | mapping _ bs _ => exact h.insert hvalue name
  | null | bool | int | float | text | sequence =>
    cases sameForm h.same
    exact h

/-- Alike items get the same values. -/
theorem withNamedValue (h : a.Alike b) (keyField valueField : String)
    (values : List (String × String)) :
    (a.withNamedValue keyField valueField values).Alike
      (b.withNamedValue keyField valueField values) := by
  have hname : a.nameAt? keyField = b.nameAt? keyField :=
    bind_eq_of_rel (h.field? keyField) fun _ _ hfield => hfield.text?
  cases hvalue : (a.nameAt? keyField).bind fun name => values.lookup name with
  | none =>
    rw [withNamedValue_of_none hvalue, withNamedValue_of_none (hname ▸ hvalue)]
    exact h
  | some value =>
    obtain ⟨name, hname', hlookup⟩ := Option.bind_eq_some_iff.1 hvalue
    rw [withNamedValue_of_lookup hname' hlookup, withNamedValue_of_lookup (hname ▸ hname') hlookup]
    exact h.withSpot (.refl (uniqueKeys_text value)) valueField

end Tree.Alike

/-! ### Actions -/

theorem Tree.Alike.replaceText {a b : Tree} (h : a.Alike b) (old new : String) :
    AlikeEnd ((a.replaceText old new).map .holds) ((b.replaceText old new).map .holds) := by
  unfold Tree.replaceText
  rw [h.text?]
  cases b.text? with
  | none => exact .error _
  | some text => exact .ok (.holds (.refl (Tree.uniqueKeys_text _)))

/-- A change of the items of a sequence that leaves alike items alike. -/
theorem Tree.Alike.changeItems {a b : Tree} (h : a.Alike b) {change : List Tree → List Tree}
    (hchange : ∀ as bs, List.Forall₂ Tree.Alike as bs →
      List.Forall₂ Tree.Alike (change as) (change bs)) :
    AlikeEnd ((a.changeItems change).map .holds) ((b.changeItems change).map .holds) := by
  -- both have tags around them in the same way, and below them both are sequences or neither is
  have hboth : (∃ c d, a.changeItems change = .ok c ∧ b.changeItems change = .ok d ∧ c.Alike d) ∨
      ∃ failure, a.changeItems change = .error failure ∧ b.changeItems change = .error failure := by
    induction a using Tree.inductionOn generalizing b with
    | tagged tag content ih =>
      obtain ⟨other, rfl, hcontent⟩ := h.content
      rcases ih hcontent with ⟨c, d, hc, hd, halike⟩ | ⟨failure, hc, hd⟩
      · refine .inl ⟨.tagged tag c, .tagged tag d, ?_, ?_, halike.tagged tag⟩
        · rw [Tree.changeItems, hc]; rfl
        · rw [Tree.changeItems, hd]; rfl
      · refine .inr ⟨failure, ?_, ?_⟩
        · rw [Tree.changeItems, hc]; rfl
        · rw [Tree.changeItems, hd]; rfl
    | sequence as =>
      cases Tree.sameForm h.same with
      | sequence _ bs _ =>
        exact .inl ⟨_, _, rfl, rfl, .sequence (hchange as bs h.forall₂)⟩
    | null | bool | int | float | text | mapping =>
      cases Tree.sameForm h.same
      exact .inr ⟨_, rfl, rfl⟩
  rcases hboth with ⟨c, d, hc, hd, halike⟩ | ⟨failure, hc, hd⟩
  · rw [hc, hd]
    exact .ok (.holds halike)
  · rw [hc, hd]
    exact .error failure

/-- **Actions end alike on spots that are alike.** -/
theorem Spot.Alike.onSpot {s t : Spot} (h : s.Alike t) {action : Action}
    (haction : action.uniqueKeys) : AlikeEnd (action.onSpot s) (action.onSpot t) := by
  cases h with
  | nowhere => exact .error _
  | unkeyed => cases action <;> exact .error _
  | free =>
    cases action with
    | set value => exact .ok (.holds (.refl haction))
    | remove => exact .ok .free
    | replace | setEntries => exact .error _
  | holds h =>
    cases action with
    | set value => exact .ok (.holds (.refl haction))
    | remove => exact .ok .free
    | replace old new => exact h.replaceText old new
    | setEntries keyField valueField values =>
      refine h.changeItems ?_
      intro as bs hitems
      rw [List.forall₂_map_left_iff, List.forall₂_map_right_iff]
      exact hitems.imp fun _ _ hitem => hitem.withNamedValue keyField valueField values

/-- A node with the like of what is at a key put there is like the node. -/
theorem Tree.alike_withSpot {node : Tree} {name : String} {s : Spot} (hnode : node.uniqueKeys)
    (h : s.Alike (node.spotAt name)) : (node.withSpot name s).Alike node := by
  -- with what is at the key put there again the node stays as it is
  have hself : (node.withSpot name (node.spotAt name)).Alike node := by
    rw [withSpot_self]
    exact .refl hnode
  generalize node.spotAt name = t at h hself
  cases h with
  | nowhere | unkeyed | free => exact hself
  | holds hvalue => exact ((Alike.refl hnode).withSpot hvalue name).trans hself

/-! ### Operations -/

namespace Operation

variable {operation : Operation} {path : List Segment} {name : String} {policy : Policy}
  {tree root changed : Tree} {record : Record}

/-- An operation whose action leaves the like of what is at its target leaves the like of the
document. -/
theorem AtKey.alike_of_act (h : operation.AtKey path name) (hroot : root.uniqueKeys) {spot : Spot}
    (hspot : operation.action.onSpot (operation.spot root) = .ok spot)
    (halike : spot.Alike (operation.spot root)) :
    ∃ changed, operation.act root = .ok changed ∧ changed.Alike root := by
  rcases h.act_cases root with ⟨-, hnone⟩ | ⟨layers, parent, rfl, hparent, hends⟩
  · rw [hnone] at hspot
    cases hspot
  · rw [hparent] at hspot halike
    rw [hspot] at hends
    exact ⟨_, hends, (Tree.alike_withSpot (Tree.uniqueKeys_of_wrap hroot) halike).wrap hroot⟩

/-- An operation that leaves a document as it is leaves one that is like it alike. -/
theorem AtKey.exists_run_alike (h : operation.AtKey path name)
    (haction : operation.action.uniqueKeys)
    (hrun : operation.run policy tree = .ok (tree, record)) (hroot : root.Alike tree) :
    ∃ changed, operation.run policy root = .ok (changed, record) ∧ changed.Alike tree := by
  have hspots : (operation.spot root).Alike (operation.spot tree) := by
    rw [h.spot_eq, h.spot_eq]
    exact hroot.spot path name
  have hends := hspots.onSpot haction
  rcases (run_eq_ok h.unguarded).1 hrun with ⟨hact, hrecord⟩ | ⟨hact, hpolicy, -, hrecord⟩
  · rw [h.onSpot_of_act hact] at hends
    generalize hspot : operation.action.onSpot (operation.spot root) = outcome at hends
    cases hends with
    | @ok spot _ hleft =>
      obtain ⟨changed, hact', halike⟩ :=
        h.alike_of_act hroot.left hspot (hleft.trans hspots.symm)
      exact ⟨changed, (run_eq_ok h.unguarded).2 (.inl ⟨hact', hrecord⟩), halike.trans hroot⟩
  · rw [h.act_eq_error.1 hact] at hends
    generalize hspot : operation.action.onSpot (operation.spot root) = outcome at hends
    cases hends with
    | error =>
      have hmissing := h.act_eq_error.2 hspot
      exact ⟨root, (run_eq_ok h.unguarded).2 (.inr ⟨hmissing, hpolicy, rfl, hrecord⟩), hroot⟩

end Operation

/-! ### Runs -/

variable {policy : Policy} {operations : List Operation} {tree root after : Tree}
  {records : List Record}

/-- **A patch that leaves a document as it is leaves one that is like it alike**, with the same
records. -/
theorem Settled.exists_ran_alike (h : Settled policy tree operations records)
    (hkeys : ∀ operation ∈ operations, ∃ path name, operation.AtKey path name)
    (hactions : ∀ operation ∈ operations, operation.action.uniqueKeys) (hroot : root.Alike tree) :
    ∃ after, Ran policy operations root records after ∧ after.Alike tree := by
  induction h generalizing root with
  | nil => exact ⟨root, .nil root, hroot⟩
  | cons hrun _ ih =>
    obtain ⟨⟨_, _, hkey⟩, hkeys⟩ := List.forall_mem_cons.1 hkeys
    obtain ⟨haction, hactions⟩ := List.forall_mem_cons.1 hactions
    obtain ⟨changed, hrun', hchanged⟩ := hkey.exists_run_alike haction hrun hroot
    obtain ⟨after, hran, hafter⟩ := ih hkeys hactions hchanged
    exact ⟨after, .cons hrun' hran, hafter⟩

end OperatorBundle
