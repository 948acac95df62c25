import OperatorBundle.Proofs.Layout.Rendering

/-!
The order of keys in a rendering. A mapping that changed is rendered entry by entry, in the order of
the new tree; only within lines that are kept, since they say the same as the new tree, do keys
stand in the order of the source.
-/

namespace OperatorBundle.Layout

open OperatorBundle.Text

mutual
/-- A text that lines are rendered as for a new tree: the lines themselves if the tree is the same
as the old one, or else the parts of a collection, in the order of the new tree. -/
inductive InOrder : List Line → Tree → Tree → List Char → Prop
  | kept {lines : List Line} {old new : Tree} (h : old.same new) :
    InOrder lines old new lines.flatten
  | mapping {lines : List Line} {before entries : List Entry} {indent : Nat} {chunks : List Chunk}
      {parts : List (List Char)} (hcut : cut? .mapping lines = some (indent, chunks))
      (h : EntriesInOrder indent chunks before entries parts) :
    InOrder lines (.mapping before) (.mapping entries)
      (onOwnLines ((lines.takeWhile isBlankOrComment).flatten :: parts))
  | sequence {lines : List Line} {olds items : List Tree} {indent : Nat} {chunks : List Chunk}
      {parts : List (List Char)} (hcut : cut? .sequence lines = some (indent, chunks))
      (h : ItemsInOrder indent chunks olds items parts) :
    InOrder lines (.sequence olds) (.sequence items)
      (onOwnLines ((lines.takeWhile isBlankOrComment).flatten :: parts))

/-- The parts of a mapping, for each entry of the new one in turn: the line with its key and the
text below it, or the entry written anew, and the lines that trailed it. -/
inductive EntriesInOrder :
    Nat → List Chunk → List Entry → List Entry → List (List Char) → Prop
  | nil {indent : Nat} {chunks : List Chunk} {before : List Entry} :
    EntriesInOrder indent chunks before [] []
  | inPlace {indent : Nat} {chunks : List Chunk} {before entries : List Entry}
      {key value k old : Tree} {chunk : Chunk} {text : List Char} {parts : List (List Char)}
      (hchunk : chunk ∈ chunks) (hkey : firstKey? indent chunk.first = some k)
      (hsame : k.same key) (hold : Tree.lookupSame? key before = some old)
      (h : InOrder chunk.nested old value text)
      (hmore : EntriesInOrder indent chunks before entries parts) :
    EntriesInOrder indent chunks before ((key, value) :: entries)
      ((chunk.first ++ text) :: chunk.trailer.flatten :: parts)
  | rewritten {indent : Nat} {chunks : List Chunk} {before entries : List Entry}
      {key value k : Tree} {chunk : Chunk} {text : List Char} {parts : List (List Char)}
      (hchunk : chunk ∈ chunks) (hkey : firstKey? indent chunk.first = some k)
      (hsame : k.same key) (h : freshEntryText? indent key value = some text)
      (hmore : EntriesInOrder indent chunks before entries parts) :
    EntriesInOrder indent chunks before ((key, value) :: entries)
      (text :: chunk.trailer.flatten :: parts)
  | added {indent : Nat} {chunks : List Chunk} {before entries : List Entry} {key value : Tree}
      {text : List Char} {parts : List (List Char)}
      (h : freshEntryText? indent key value = some text)
      (hmore : EntriesInOrder indent chunks before entries parts) :
    EntriesInOrder indent chunks before ((key, value) :: entries) (text :: parts)

/-- The parts of a sequence, for each item of the new one in turn: its lines, or its dash before the
text of its value, or the item written anew, and the lines that trailed it. -/
inductive ItemsInOrder : Nat → List Chunk → List Tree → List Tree → List (List Char) → Prop
  | nil {indent : Nat} : ItemsInOrder indent [] [] [] []
  | kept {indent : Nat} {chunk : Chunk} {chunks : List Chunk} {old new : Tree}
      {olds items : List Tree} {parts : List (List Char)} (h : old.same new)
      (hmore : ItemsInOrder indent chunks olds items parts) :
    ItemsInOrder indent (chunk :: chunks) (old :: olds) (new :: items)
      (chunk.body.flatten :: chunk.trailer.flatten :: parts)
  | inPlace {indent : Nat} {chunk : Chunk} {chunks : List Chunk} {old new : Tree}
      {olds items : List Tree} {text node : List Char} {parts : List (List Char)}
      (h : InOrder (blankDash indent chunk) old new text)
      (hdash : restoreDash? indent text = some node)
      (hmore : ItemsInOrder indent chunks olds items parts) :
    ItemsInOrder indent (chunk :: chunks) (old :: olds) (new :: items)
      (node :: chunk.trailer.flatten :: parts)
  | rewritten {indent : Nat} {chunk : Chunk} {chunks : List Chunk} {old new : Tree}
      {olds items : List Tree} {text : List Char} {parts : List (List Char)}
      (h : freshItemText? indent new = some text)
      (hmore : ItemsInOrder indent chunks olds items parts) :
    ItemsInOrder indent (chunk :: chunks) (old :: olds) (new :: items)
      (text :: chunk.trailer.flatten :: parts)
end

/-! ### Renderings -/

/-- What is to be shown of the renderings for a new tree. -/
def RendersInOrder (new : Tree) : Prop :=
  ∀ lines old out, renderBlock? lines old new = some out → InOrder lines old new out

section Parts

variable {indent : Nat} {parts : List (List Char)}

theorem entriesInOrder_of_renderEntries? {before entries : List Entry}
    {keyed : List (Tree × Chunk)}
    (hkeyed : ∀ c ∈ keyed, firstKey? indent c.2.first = some c.1)
    (hvalues : ∀ e ∈ entries, RendersInOrder e.2)
    (h : renderEntries? indent before keyed entries = some parts) :
    EntriesInOrder indent (keyed.map (·.2)) before entries parts := by
  induction entries generalizing parts with
  | nil =>
    obtain rfl : [] = parts := by simpa [renderEntries?] using h
    exact .nil
  | cons e entries ih =>
    obtain ⟨key, value⟩ := e
    obtain ⟨hvalue, hvalues⟩ := List.forall_mem_cons.1 hvalues
    cases hfind : keyed.find? fun c => c.1.same key with
    | none =>
      obtain ⟨node, rest, hnode, hrest, rfl⟩ := renderEntries?_of_added (.inl hfind) h
      exact .added hnode (ih hvalues hrest)
    | some c =>
      obtain ⟨k, chunk⟩ := c
      have hmem := List.mem_of_find?_eq_some hfind
      have hchunk : chunk ∈ keyed.map (·.2) := List.mem_map_of_mem hmem
      have hkey : firstKey? indent chunk.first = some k := hkeyed (k, chunk) hmem
      have hsame : k.same key := List.find?_some (p := fun c : Tree × Chunk => c.1.same key) hfind
      cases hold : Tree.lookupSame? key before with
      | none =>
        obtain ⟨node, rest, hnode, hrest, rfl⟩ := renderEntries?_of_added (.inr hold) h
        exact .added hnode (ih hvalues hrest)
      | some old =>
        obtain ⟨node, rest, hnode, hrest, rfl⟩ := renderEntries?_of_found hfind hold h
        have hmore := ih hvalues hrest
        rcases renderNode?_cases hnode with ⟨hkept, rfl⟩ | ⟨-, hlook⟩ | ⟨-, -, hfresh⟩
        · exact .inPlace hchunk hkey hsame hold (.kept hkept) hmore
        · obtain ⟨-, text, htext, rfl⟩ := lookInto?_mapping_eq_some.1 hlook
          exact .inPlace hchunk hkey hsame hold (hvalue _ _ _ htext) hmore
        · exact .rewritten hchunk hkey hsame hfresh hmore

theorem itemsInOrder_of_renderItems? {olds items : List Tree} {chunks : List Chunk}
    (hlength : olds.length = items.length) (hcount : chunks.length = olds.length)
    (hitems : ∀ t ∈ items, RendersInOrder t)
    (h : renderItems? indent olds chunks items = some parts) :
    ItemsInOrder indent chunks olds items parts := by
  induction olds generalizing chunks items parts with
  | nil =>
    obtain rfl := List.length_eq_zero_iff.1 hcount
    obtain rfl := List.length_eq_zero_iff.1 hlength.symm
    obtain rfl : [] = parts := by simpa [renderItems?] using h
    exact .nil
  | cons old olds ih =>
    obtain ⟨chunk, chunks, rfl⟩ := List.exists_cons_of_length_eq_add_one hcount
    obtain ⟨new, items, rfl⟩ := List.exists_cons_of_length_eq_add_one hlength.symm
    obtain ⟨hitem, hitems⟩ := List.forall_mem_cons.1 hitems
    obtain ⟨node, rest, hnode, hrest, rfl⟩ := renderItems?_cons h
    have hmore := ih (by simpa using hlength) (by simpa using hcount) hitems hrest
    rcases renderNode?_cases hnode with ⟨hkept, rfl⟩ | ⟨-, hlook⟩ | ⟨-, -, hfresh⟩
    · exact .kept hkept hmore
    · obtain ⟨text, htext, hdash⟩ := Option.bind_eq_some_iff.1 hlook
      exact .inPlace (hitem _ _ _ htext) hdash hmore
    · exact .rewritten hfresh hmore

end Parts

/-- **Renderings list the entries of mappings that changed in the order of the new tree.** -/
theorem rendersInOrder (new : Tree) : RendersInOrder new := by
  induction new using Tree.inductionOn with
  | mapping entries ih =>
    intro lines old out h
    cases rendered h with
    | unchanged hsame => exact .kept hsame
    | mapping _ _ hcut hkeyed hparts =>
      obtain ⟨rfl, hkeys⟩ := firstKey?_of_keyed? hkeyed
      exact .mapping hcut
        (entriesInOrder_of_renderEntries? hkeys (fun e he => (ih e he).2) hparts)
  | sequence items ih =>
    intro lines old out h
    cases rendered h with
    | unchanged hsame => exact .kept hsame
    | sequence _ hlength hcount hcut hparts =>
      exact .sequence hcut (itemsInOrder_of_renderItems? hlength hcount ih hparts)
  | null | bool | int | float | text | tagged =>
    intro lines old out h
    cases rendered h with
    | unchanged hsame => exact .kept hsame

end OperatorBundle.Layout
