import OperatorBundle.Proofs.Layout.Rendering
import OperatorBundle.Proofs.Tree.Sameness

/-!
The indentation of a rendering. It starts no further left than the lines it is rendered from, so the
blank that took the place of the dash of an item is there to be taken back.

* `keepsIndentation`: a rendering keeps the indentation of its first line.
* `KeepsIndentation.blankDash`: the value of an item is rendered behind the place of its dash.
-/

namespace OperatorBundle.Layout

open OperatorBundle.Text

theorem indentation_le_append (part rest : List Char) :
    indentation part ≤ indentation (part ++ rest) := by
  calc
    indentation part ≤ indentation (spaces (indentation part) ++
        (part.drop (indentation part) ++ rest)) := by
      rw [indentation_spaces_append]
      omega
    _ = indentation (part ++ rest) := by
      rw [← List.append_assoc, ← take_indentation, List.take_append_drop]

theorem indentation_le_joined (part rest : List Char) :
    indentation part ≤ indentation (joined part rest) := by
  unfold joined
  split_ifs
  · exact indentation_le_append part rest
  · exact indentation_le_append part ('\n' :: rest)

theorem StartsAt.le_indentation {indent : Nat} {text : List Char} (h : StartsAt indent text) :
    indent ≤ indentation text := by
  obtain ⟨c, rest, rfl, -⟩ := h
  rw [indentation_spaces_append]
  omega

/-- A text that is indented is one behind spaces. -/
theorem exists_of_lt_indentation {indent : Nat} {text : List Char} (h : indent < indentation text) :
    ∃ more, text = spaces indent ++ ' ' :: more :=
  exists_of_getElem?_spaces fun i hi => getElem?_of_lt_indentation (by omega)

/-! ### First parts -/

section
variable {indent : Nat} {parts : List (List Char)}

theorem indentation_head_of_renderEntries? {before : List Entry} {keyed : List (Tree × Chunk)}
    {e : Entry} {entries : List Entry} (hkeyed : ∀ c ∈ keyed, indent ≤ indentation c.2.first)
    (h : renderEntries? indent before keyed (e :: entries) = some parts) :
    ∃ node rest, parts = node :: rest ∧ indent ≤ indentation node := by
  obtain ⟨key, value⟩ := e
  cases hfind : keyed.find? fun c => c.1.same key with
  | none =>
    obtain ⟨node, rest, hnode, -, rfl⟩ := renderEntries?_of_added (.inl hfind) h
    exact ⟨node, rest, rfl, (startsAt_freshEntryText hnode).le_indentation⟩
  | some c =>
    cases hold : Tree.lookupSame? key before with
    | none =>
      obtain ⟨node, rest, hnode, -, rfl⟩ := renderEntries?_of_added (.inr hold) h
      exact ⟨node, rest, rfl, (startsAt_freshEntryText hnode).le_indentation⟩
    | some old =>
      obtain ⟨node, rest, hnode, -, rfl⟩ := renderEntries?_of_found hfind hold h
      refine ⟨node, _, rfl, ?_⟩
      have hfirst := hkeyed c (List.mem_of_find?_eq_some hfind)
      rcases renderNode?_cases hnode with ⟨-, rfl⟩ | ⟨-, hlook⟩ | ⟨-, -, hfresh⟩
      · exact hfirst.trans (indentation_le_append _ _)
      · obtain ⟨-, text, -, rfl⟩ := lookInto?_mapping_eq_some.1 hlook
        exact hfirst.trans (indentation_le_append _ _)
      · exact (startsAt_freshEntryText hfresh).le_indentation

/-- What is to be shown of the renderings for a new tree: they start no further left than the lines
they are made from. -/
def KeepsIndentation (new : Tree) : Prop :=
  ∀ first more old out, renderBlock? (first :: more) old new = some out →
    indentation first ≤ indentation out

/-- The value of an item is rendered behind the blank that took the place of its dash. -/
theorem KeepsIndentation.blankDash {chunk : Chunk} {old new : Tree} {out : List Char}
    (hnew : KeepsIndentation new) (hfirst : lineRole .sequence indent chunk.first = .starts)
    (h : renderBlock? (blankDash indent chunk) old new = some out) :
    ∃ rest, out = spaces indent ++ ' ' :: rest := by
  obtain ⟨more, hmore⟩ := exists_dash hfirst
  unfold Layout.blankDash at h
  rw [hmore, set_spaces] at h
  exact exists_of_lt_indentation
    ((lt_indentation_blanked indent more).trans_le (hnew _ _ _ _ h))

/-- The node of an item starts at the indentation of its dash. -/
theorem KeepsIndentation.node {chunk : Chunk} {old new : Tree} {node : List Char}
    (hnew : KeepsIndentation new) (hfirst : lineRole .sequence indent chunk.first = .starts)
    (h : renderNode? .sequence indent chunk old new (freshItemText? indent new) = some node) :
    indent ≤ indentation node := by
  rcases renderNode?_cases h with ⟨-, rfl⟩ | ⟨-, hlook⟩ | ⟨-, -, hfresh⟩
  · obtain ⟨more, hmore⟩ := exists_dash hfirst
    rw [Chunk.body, List.flatten_cons, hmore, List.append_assoc, indentation_spaces_append]
    omega
  · obtain ⟨text, htext, -, rfl⟩ := lookInto?_sequence_eq_some.1 hlook
    obtain ⟨rest, rfl⟩ := hnew.blankDash hfirst htext
    rw [set_spaces, indentation_dashed]
  · exact (startsAt_freshItemText hfresh).le_indentation

theorem indentation_head_of_renderItems? {old new : Tree} {olds items : List Tree} {chunk : Chunk}
    {chunks : List Chunk} (hnew : KeepsIndentation new)
    (hfirst : lineRole .sequence indent chunk.first = .starts)
    (h : renderItems? indent (old :: olds) (chunk :: chunks) (new :: items) = some parts) :
    ∃ node rest, parts = node :: rest ∧ indent ≤ indentation node := by
  obtain ⟨node, rest, hnode, -, rfl⟩ := renderItems?_cons h
  exact ⟨node, _, rfl, hnew.node hfirst hnode⟩

end

/-! ### Blocks -/

/-- Behind the lines that lead it, a block starts at its indentation. -/
theorem indentation_le_onOwnLines {kind : BlockKind} {first : Line} {more : List Line}
    {indent : Nat} {chunks : List Chunk} {node : List Char} {rest : List (List Char)}
    (hcut : cut? kind (first :: more) = some (indent, chunks)) (hnode : indent ≤ indentation node) :
    indentation first ≤ indentation (onOwnLines
      (((first :: more).takeWhile isBlankOrComment).flatten :: node :: rest)) := by
  rw [onOwnLines_cons]
  by_cases hblank : isBlankOrComment first = true
  · rw [List.takeWhile_cons_of_pos hblank, List.flatten_cons]
    exact (indentation_le_append _ _).trans (indentation_le_joined _ _)
  · rw [List.takeWhile_cons_of_neg hblank, List.flatten_nil, joined_nil_left, onOwnLines_cons]
    have hindent : indent = indentation first := by
      unfold cut? at hcut
      rw [List.dropWhile_cons_of_neg hblank] at hcut
      dsimp only at hcut
      split at hcut
      · exact (Prod.mk.inj (Option.some.inj hcut)).1.symm
      · cases hcut
    rw [← hindent]
    exact hnode.trans (indentation_le_joined _ _)

/-- **A rendering starts no further left than its lines.** -/
theorem keepsIndentation (new : Tree) : KeepsIndentation new := by
  induction new using Tree.inductionOn with
  | mapping entries ih =>
    intro first more old out h
    cases rendered h with
    | unchanged => exact indentation_le_append _ _
    | mapping _ hentries hcut hkeyed hparts =>
      obtain ⟨e, entries, rfl⟩ := List.exists_cons_of_ne_nil hentries
      obtain ⟨rfl, -⟩ := keyed?_eq_some hkeyed
      have hstarts := starts_of_chunksAfter? (cut?_eq_some hcut)
      obtain ⟨node, rest, rfl, hnode⟩ := indentation_head_of_renderEntries?
        (fun c hc => (lineRole_eq_starts (hstarts _ (List.mem_map_of_mem hc))).2.1.ge) hparts
      exact indentation_le_onOwnLines hcut hnode
  | sequence items ih =>
    intro first more old out h
    cases rendered h with
    | unchanged => exact indentation_le_append _ _
    | @sequence olds _ _ chunks _ hchanged hlength hcount hcut hparts =>
      cases olds with
      | nil =>
        obtain rfl := List.length_eq_zero_iff.1 hlength.symm
        cases hchanged
      | cons old olds =>
      obtain ⟨new, items, rfl⟩ := List.exists_cons_of_length_eq_add_one hlength.symm
      obtain ⟨chunk, chunks, rfl⟩ := List.exists_cons_of_length_eq_add_one hcount
      obtain ⟨hchunk, -⟩ := List.forall_mem_cons.1 (starts_of_chunksAfter? (cut?_eq_some hcut))
      obtain ⟨hitem, -⟩ := List.forall_mem_cons.1 ih
      obtain ⟨node, rest, rfl, hnode⟩ := indentation_head_of_renderItems? hitem hchunk hparts
      exact indentation_le_onOwnLines hcut hnode
  | null | bool | int | float | text | tagged =>
    intro first more old out h
    cases rendered h with
    | unchanged => exact indentation_le_append _ _

end OperatorBundle.Layout
