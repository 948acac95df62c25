import OperatorBundle.Proofs.Locator.Path
import OperatorBundle.Proofs.Patch.Outcome
import OperatorBundle.Proofs.Text.Replacement

/-!
Replacement of a text in a string. The string is read through its tags, and what is written in its
place has none: a replacement changes the text of the string and nothing else if and only if the
string has no tag.

* `Tree.withText`: a node with another text, below the tags that it has.
* `replaced_iff_untagged`: what a replacement leaves.
* `tag_lost`: a replacement of a text that does not occur, which changes the tree.
-/

namespace OperatorBundle

namespace Tree

/-- A string with another text, below its tags. -/
def withText (text : String) : Tree → Tree
  | .tagged tag content => .tagged tag (content.withText text)
  | .text _ => .text text
  | tree => tree

variable {node : Tree} {text : String}

theorem withText_of_text? (h : node.text? = some text) : node.withText text = node := by
  induction node using Tree.inductionOn with
  | tagged tag content ih => exact congrArg (Tree.tagged tag) (ih h)
  | text found => exact congrArg Tree.text (Option.some.inj h).symm
  | null | bool | int | float | sequence | mapping => cases h

/-- Only a string without a tag is no more than its text. -/
theorem withText_eq_text_iff (h : node.text? = some text) (other : String) :
    node.withText other = .text other ↔ node.tags = [] := by
  cases node with
  | tagged tag content => simp [withText, tags]
  | text found => simp [withText, tags]
  | null | bool | int | float | sequence | mapping => cases h

/-- What a replacement makes of a node: the node is a string, and the new one has no tag. -/
theorem exists_of_replaceText {old new : String} {next : Tree}
    (h : node.replaceText old new = .ok next) :
    ∃ text result, node.text? = some text ∧
      Text.Replaced old.toList new.toList text.toList result ∧
      next = .text (String.ofList result) := by
  obtain ⟨text, htext, hnext⟩ := replaceText_eq_ok.1 h
  exact ⟨text, _, htext, Text.replaced_replaceAll _ _ _, hnext⟩

end Tree

/-- **What a replacement leaves.** The target is a string; its occurrences of the old text are
replaced from the left, each behind the one before, and nothing beside the target has changed. The
target is what it was with that text, and the tree stays as it is where the old text does not occur,
if and only if the string had no tag. -/
theorem replaced_iff_untagged {policy : Policy} {operation : Operation} {tree changed : Tree}
    {record : Record} {old new : String} (haction : operation.action = .replace old new)
    (hrun : operation.run policy tree = .ok (changed, record))
    (happlied : record.outcome = .applied) :
    ∃ steps node text result,
      tree.concrete? operation.target.segments = some steps ∧
      tree.resolve? operation.target.segments = some node ∧ node.text? = some text ∧
      Text.Replaced old.toList new.toList text.toList result ∧
      Tree.Between steps tree changed node (.text (String.ofList result)) ∧
      (changed.at? steps = some (node.withText (String.ofList result)) ↔ node.tags = []) ∧
      (Text.occursIn old.toList text.toList = false → (changed = tree ↔ node.tags = [])) := by
  obtain ⟨-, hact, -⟩ := (Operation.run_eq_applied_iff happlied).1 hrun
  rw [Operation.act_eq_change (Operation.target_ne_nil_of_act hact)
    (congrArg Action.onTarget? haction)] at hact
  obtain ⟨steps, node, next, hsteps, hnode, hnext, hbetween⟩ := Tree.exists_between_of_change hact
  obtain ⟨text, result, htext, hreplaced, rfl⟩ := Tree.exists_of_replaceText hnext
  obtain ⟨hbefore, hafter⟩ := hbetween.at?
  refine ⟨steps, node, text, result, hsteps, hnode, htext, hreplaced, hbetween, ?_, fun hnone => ?_⟩
  · rw [hafter, Option.some_inj, eq_comm]
    exact Tree.withText_eq_text_iff htext _
  · -- the text is the same, so the tags decide
    obtain rfl := hreplaced.eq_of_not_occursIn hnone
    rw [String.ofList_toList] at hbetween hafter
    have hsame : Tree.text text = node ↔ node.tags = [] := by
      have h := Tree.withText_eq_text_iff htext text
      rwa [Tree.withText_of_text? htext, eq_comm] at h
    refine ⟨?_, fun htags => hbetween.eq (hsame.2 htags)⟩
    rintro rfl
    rw [hbefore] at hafter
    exact hsame.1 (Option.some.inj hafter).symm

/-- A string with a tag, and one without. -/
def taggedText : Tree :=
  .mapping [(.text "a", .tagged "t" (.text "x")), (.text "b", .text "aaa")]

/-- Of two occurrences that overlap the first is replaced. -/
theorem replaced_iff_untagged_overlap :
    let changed := Tree.mapping [(.text "a", .tagged "t" (.text "x")), (.text "b", .text "ba")]
    ∃ steps result, taggedText.concrete? [.key "b"] = some steps ∧
      Text.Replaced "aa".toList "b".toList "aaa".toList result ∧
      Tree.Between steps taggedText changed (.text "aaa") (.text (String.ofList result)) ∧
      changed.at? steps = some (.text (String.ofList result)) := by
  let operation := Operation.replace (Locator.root.key "b") "aa" "b"
  have hrun : operation.run .fail taggedText = .ok (_, operation.record .applied) := rfl
  obtain ⟨steps, node, text, result, hsteps, hnode, htext, hreplaced, hbetween, hkept, -⟩ :=
    replaced_iff_untagged rfl hrun rfl
  obtain rfl : Tree.text "aaa" = node := Option.some.inj hnode
  obtain rfl : "aaa" = text := Option.some.inj htext
  exact ⟨steps, result, hsteps, hreplaced, hbetween, hkept.2 rfl⟩

/-- A text that does not occur is replaced in the string with the tag, and the tag is gone. -/
theorem tag_lost :
    ¬ ∀ (policy : Policy) (operation : Operation) (tree changed : Tree) (record : Record)
      (old new : String), operation.action = .replace old new →
      operation.run policy tree = .ok (changed, record) → record.outcome = .applied →
      ∃ steps node text result,
        tree.concrete? operation.target.segments = some steps ∧
        tree.resolve? operation.target.segments = some node ∧ node.text? = some text ∧
        Text.Replaced old.toList new.toList text.toList result ∧
        changed.at? steps = some (node.withText (String.ofList result)) ∧
        (Text.occursIn old.toList text.toList = false → changed = tree) := by
  intro h
  let operation := Operation.replace (Locator.root.key "a") "q" "r"
  have hrun : operation.run .fail taggedText = .ok (_, operation.record .applied) := rfl
  obtain ⟨steps, node, text, result, -, hnode, htext, -, -, hsame⟩ := h _ _ _ _ _ _ _ rfl hrun rfl
  obtain rfl : Tree.tagged "t" (.text "x") = node := Option.some.inj hnode
  obtain rfl : "x" = text := Option.some.inj htext
  cases hsame (by decide)

end OperatorBundle
