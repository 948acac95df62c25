import OperatorBundle.Proofs.Layout.Chunks
import OperatorBundle.Proofs.Yaml.DistinctKeys

/-!
What a rendering is made of. A block is kept whole, or cut into chunks and put together from what
becomes of each. What becomes of the node of a chunk does not depend on whether it is an entry or an
item: it is kept, or looked into, or written anew.
-/

namespace OperatorBundle.Layout

open OperatorBundle.Text

/-! ### Cutting -/

/-- The indentation and the chunks of a block collection, behind the blank and comment lines that
lead it. -/
def cut? (kind : BlockKind) (lines : List Line) : Option (Nat × List Chunk) :=
  match lines.dropWhile isBlankOrComment with
  | [] => none
  | first :: more =>
    match chunksAfter? kind (indentation first) (first :: more) with
    | some ([], chunks) => some (indentation first, chunks)
    | _ => none

theorem cut?_eq_some {kind : BlockKind} {lines : List Line} {indent : Nat} {chunks : List Chunk}
    (h : cut? kind lines = some (indent, chunks)) :
    chunksAfter? kind indent (lines.dropWhile isBlankOrComment) = some ([], chunks) := by
  unfold cut? at h
  split at h
  · cases h
  · rename_i first more hdrop
    split at h
    · rename_i found hfound
      obtain ⟨rfl, rfl⟩ := Prod.mk.inj (Option.some.inj h)
      rw [hdrop, hfound]
    · cases h

/-- The first line of a block is no blank or comment line. -/
theorem isBlankOrComment_of_dropWhile {lines : List Line} {first : Line} {more : List Line}
    (h : lines.dropWhile isBlankOrComment = first :: more) : isBlankOrComment first = false := by
  have hhead := List.head?_dropWhile_not isBlankOrComment lines
  rw [h] at hhead
  simpa using hhead

/-- The first line of a block starts a chunk. -/
theorem lineRole_of_dropWhile {kind : BlockKind} {lines : List Line} {first : Line}
    {more : List Line} (hdrop : lines.dropWhile isBlankOrComment = first :: more)
    (hfirst : isItem (textFrom (indentation first) first) = true ↔ kind = .sequence) :
    lineRole kind (indentation first) first = .starts := by
  unfold lineRole
  rw [isBlankOrComment_of_dropWhile hdrop, if_neg (by simp), if_neg (by omega), if_neg (by omega)]
  cases kind with
  | mapping => simp_all
  | sequence => simp_all

theorem cut?_of_starts {kind : BlockKind} {lines : List Line} {first : Line} {more : List Line}
    {chunks : List Chunk} (hdrop : lines.dropWhile isBlankOrComment = first :: more)
    (hfirst : isItem (textFrom (indentation first) first) = true ↔ kind = .sequence)
    (hchunks : chunks? kind (indentation first) (first :: more) = some chunks) :
    cut? kind lines = some (indentation first, chunks) := by
  rw [cut?, hdrop]
  simp only [chunksAfter?_of_starts (lineRole_of_dropWhile hdrop hfirst) hchunks]

theorem lines_of_cut? {kind : BlockKind} {lines : List Line} {indent : Nat} {chunks : List Chunk}
    (h : cut? kind lines = some (indent, chunks)) :
    lines.takeWhile isBlankOrComment ++ chunks.flatMap Chunk.lines = lines := by
  have happend := append_flatMap_lines_of_chunksAfter? (cut?_eq_some h)
  rw [List.nil_append] at happend
  rw [happend, List.takeWhile_append_dropWhile]

theorem AreLines.of_cut? {kind : BlockKind} {lines : List Line} {indent : Nat}
    {chunks : List Chunk} (h : AreLines lines) (hcut : cut? kind lines = some (indent, chunks)) :
    ∀ chunk ∈ chunks, AreLines chunk.lines :=
  (h.of_isInfix (List.dropWhile_suffix _).isInfix).of_chunksAfter? (cut?_eq_some hcut)

/-! ### Keys -/

/-- The keys that are scanned off the lines of a block mapping. -/
def scannedKeys? (lines : List Line) : Option (List Tree) :=
  (cut? .mapping lines).bind fun (indent, chunks) => (keyed? indent chunks).map (·.map (·.1))

/-- The key that the first line of an entry reads as. -/
def firstKey? (indent : Nat) (first : Line) : Option Tree :=
  (splitKey? (textFrom indent first)).bind fun (key, _) =>
    (Tree.ofYaml (String.ofList key)).toOption

theorem uniqueKeys_of_firstKey? {indent : Nat} {first : Line} {key : Tree}
    (h : firstKey? indent first = some key) : key.uniqueKeys := by
  obtain ⟨⟨written, after⟩, -, hread⟩ := Option.bind_eq_some_iff.1 h
  dsimp only at hread
  cases hfound : Tree.ofYaml (String.ofList written) with
  | error fault => simp [hfound, Except.toOption] at hread
  | ok found =>
    obtain rfl : found = key := by simpa [hfound, Except.toOption] using hread
    exact Tree.uniqueKeys_of_ofYaml hfound

theorem keyed?_cons (indent : Nat) (chunk : Chunk) (chunks : List Chunk) :
    keyed? indent (chunk :: chunks) =
      (firstKey? indent chunk.first).bind fun key =>
        (keyed? indent chunks).bind fun others => some ((key, chunk) :: others) := by
  rw [keyed?, List.mapM_cons, firstKey?]
  cases splitKey? (textFrom indent chunk.first) with
  | none => rfl
  | some written =>
    cases hkey : (Tree.ofYaml (String.ofList written.1)).toOption with
    | none => simp [hkey]
    | some key => simp [hkey]; rfl

/-- The keys are scanned off all chunks, each off the first line of its chunk. -/
theorem firstKey?_of_keyed? {indent : Nat} {chunks : List Chunk}
    {keyed : List (Tree × Chunk)} (h : keyed? indent chunks = some keyed) :
    keyed.map (·.2) = chunks ∧ ∀ c ∈ keyed, firstKey? indent c.2.first = some c.1 := by
  induction chunks generalizing keyed with
  | nil =>
    obtain rfl : [] = keyed := by simpa [keyed?] using h
    simp
  | cons chunk chunks ih =>
    rw [keyed?_cons] at h
    obtain ⟨key, hkey, h⟩ := Option.bind_eq_some_iff.1 h
    obtain ⟨others, hothers, h⟩ := Option.bind_eq_some_iff.1 h
    obtain rfl := Option.some.inj h
    obtain ⟨hmap, hkeys⟩ := ih hothers
    exact ⟨by rw [List.map_cons, hmap], List.forall_mem_cons.2 ⟨hkey, hkeys⟩⟩

/-- The keys are scanned off all chunks, and are trees as they are read. -/
theorem keyed?_eq_some {indent : Nat} {chunks : List Chunk} {keyed : List (Tree × Chunk)}
    (h : keyed? indent chunks = some keyed) :
    keyed.map (·.2) = chunks ∧ ∀ c ∈ keyed, c.1.uniqueKeys :=
  (firstKey?_of_keyed? h).imp_right fun hkeys c hc =>
    uniqueKeys_of_firstKey? (hkeys c hc)

/-- A key is found on the lines of the entry that has it. -/
theorem find?_scanned {c : Tree × Chunk} {e : Entry} {key : Tree} {rest : List Entry}
    {keyed : List (Tree × Chunk)}
    (hscanned : List.Forall₂ (fun (c : Tree × Chunk) (e : Entry) => c.1.same e.1) keyed rest)
    (hdiffer : Tree.KeysDiffer rest) (hrest : ∀ e ∈ rest, e.1.uniqueKeys)
    (hkeyed : ∀ c ∈ keyed, c.1.uniqueKeys) (hkey : key.uniqueKeys)
    (hmem : (c, e) ∈ keyed.zip rest) (hsame : e.1.same key) :
    keyed.find? (fun c => c.1.same key) = some c := by
  induction hscanned with
  | nil => cases hmem
  | @cons c' e' keyed rest hce hscanned ih =>
    obtain ⟨hfirst, hdiffer⟩ := List.pairwise_cons.1 hdiffer
    obtain ⟨he', hrest⟩ := List.forall_mem_cons.1 hrest
    obtain ⟨hc', hkeyed⟩ := List.forall_mem_cons.1 hkeyed
    rw [List.zip_cons_cons, List.mem_cons] at hmem
    rcases hmem with hmem | hmem
    · obtain ⟨rfl, rfl⟩ := Prod.mk.inj hmem
      exact List.find?_cons_of_pos (p := fun c : Tree × Chunk => c.1.same key)
        (Tree.same_trans hc' he' hkey hce hsame)
    · have he : e ∈ rest := (List.of_mem_zip hmem).2
      rw [List.find?_cons_of_neg, ih hdiffer hrest hkeyed hmem]
      -- were it found here, two keys of the mapping would be the same
      intro hfound
      have hkeys : e.1.same e'.1 :=
        Tree.same_trans (hrest e he) hc' he'
          (Tree.same_trans (hrest e he) hkey hc' hsame (Tree.same_symm hc' hkey hfound)) hce
      rw [hfirst e he] at hkeys
      cases hkeys

/-! ### Nodes -/

/-- The lines that are looked into for the value of a chunk. -/
def Chunk.inside (kind : BlockKind) (indent : Nat) (chunk : Chunk) : List Line :=
  match kind with
  | .mapping => chunk.nested
  | .sequence => blankDash indent chunk

/-- The node of a chunk if it is looked into. -/
def lookInto? (kind : BlockKind) (indent : Nat) (chunk : Chunk) (old new : Tree) :
    Option (List Char) :=
  match kind with
  | .mapping =>
    if valueIsBelow indent chunk.first then
      (renderBlock? chunk.nested old new).map (chunk.first ++ ·)
    else none
  | .sequence => (renderBlock? (blankDash indent chunk) old new).bind (restoreDash? indent)

/-- The node of an entry that is looked into: its line, and what becomes of the lines below. -/
theorem lookInto?_mapping_eq_some {indent : Nat} {chunk : Chunk} {old new : Tree}
    {node : List Char} :
    lookInto? .mapping indent chunk old new = some node ↔
      valueIsBelow indent chunk.first ∧
        ∃ text, renderBlock? chunk.nested old new = some text ∧ chunk.first ++ text = node := by
  unfold lookInto?
  dsimp only
  by_cases hbelow : valueIsBelow indent chunk.first
  · rw [if_pos hbelow, Option.map_eq_some_iff, and_iff_right hbelow]
  · simp [hbelow]

/-- The node of an item that is looked into: its dash, before the text of its value. -/
theorem lookInto?_sequence_eq_some {indent : Nat} {chunk : Chunk} {old new : Tree}
    {node : List Char} :
    lookInto? .sequence indent chunk old new = some node ↔
      ∃ text, renderBlock? (blankDash indent chunk) old new = some text ∧
        text[indent]? = some ' ' ∧ text.set indent '-' = node := by
  unfold lookInto? restoreDash?
  rw [Option.bind_eq_some_iff]
  refine exists_congr fun text => and_congr_right fun _ => ?_
  split_ifs with hspace
  · simp [hspace]
  · simp [hspace]

/-- What becomes of the node of a chunk; `fresh` is the node written anew. -/
def renderNode? (kind : BlockKind) (indent : Nat) (chunk : Chunk) (old new : Tree)
    (fresh : Option (List Char)) : Option (List Char) :=
  if old.same new then some chunk.body.flatten else (lookInto? kind indent chunk old new).or fresh

/-- A node is kept, or looked into, or written anew. -/
theorem renderNode?_cases {kind : BlockKind} {indent : Nat} {chunk : Chunk} {old new : Tree}
    {fresh : Option (List Char)} {node : List Char}
    (h : renderNode? kind indent chunk old new fresh = some node) :
    (old.same new ∧ node = chunk.body.flatten) ∨
      (old.same new = false ∧ lookInto? kind indent chunk old new = some node) ∨
      (old.same new = false ∧ lookInto? kind indent chunk old new = none ∧ fresh = some node) := by
  unfold renderNode? at h
  split_ifs at h with hsame
  · exact .inl ⟨hsame, (Option.some.inj h).symm⟩
  · rw [Bool.not_eq_true] at hsame
    exact .inr ((Option.or_eq_some_iff.1 h).imp (.intro hsame) (.intro hsame))

section
variable {indent : Nat} {before : List Entry} {chunks : List (Tree × Chunk)}
  {key value k old : Tree} {chunk : Chunk} {more : List Entry} {parts : List (List Char)}

/-- An entry with a chunk and a value from before has the node of its chunk, and what trails it. -/
theorem renderEntries?_cons_found (hchunk : chunks.find? (fun c => c.1.same key) = some (k, chunk))
    (hold : Tree.lookupSame? key before = some old) :
    renderEntries? indent before chunks ((key, value) :: more) =
      (renderNode? .mapping indent chunk old value
        (freshEntryText? indent key value)).bind fun node =>
        (renderEntries? indent before chunks more).bind fun rest =>
          some (node :: chunk.trailer.flatten :: rest) := by
  rw [renderEntries?, hchunk, hold, renderNode?, lookInto?]
  dsimp only
  by_cases hsame : old.same value = true
  · rw [if_pos hsame, if_pos hsame]
    rfl
  rw [if_neg hsame, if_neg hsame]
  by_cases hbelow : valueIsBelow indent chunk.first = true
  · rw [if_pos hbelow, if_pos hbelow]
    cases renderBlock? chunk.nested old value <;> rfl
  · rw [if_neg hbelow, if_neg hbelow]
    rfl

/-- An entry that has no chunk, or had no value before, is written anew. -/
theorem renderEntries?_cons_added
    (hadded : chunks.find? (fun c => c.1.same key) = none ∨ Tree.lookupSame? key before = none) :
    renderEntries? indent before chunks ((key, value) :: more) =
      (freshEntryText? indent key value).bind fun node =>
        (renderEntries? indent before chunks more).bind fun rest => some (node :: rest) := by
  rw [renderEntries?]
  rcases hadded with hchunk | hold
  · rw [hchunk]
    rfl
  · rw [hold]
    cases chunks.find? fun c => c.1.same key <;> rfl

theorem renderEntries?_of_found (hchunk : chunks.find? (fun c => c.1.same key) = some (k, chunk))
    (hold : Tree.lookupSame? key before = some old)
    (h : renderEntries? indent before chunks ((key, value) :: more) = some parts) :
    ∃ node rest,
      renderNode? .mapping indent chunk old value (freshEntryText? indent key value) = some node ∧
      renderEntries? indent before chunks more = some rest ∧
      parts = node :: chunk.trailer.flatten :: rest := by
  rw [renderEntries?_cons_found hchunk hold] at h
  obtain ⟨node, hnode, h⟩ := Option.bind_eq_some_iff.1 h
  obtain ⟨rest, hrest, h⟩ := Option.bind_eq_some_iff.1 h
  exact ⟨node, rest, hnode, hrest, (Option.some.inj h).symm⟩

theorem renderEntries?_of_added
    (hadded : chunks.find? (fun c => c.1.same key) = none ∨ Tree.lookupSame? key before = none)
    (h : renderEntries? indent before chunks ((key, value) :: more) = some parts) :
    ∃ node rest, freshEntryText? indent key value = some node ∧
      renderEntries? indent before chunks more = some rest ∧ parts = node :: rest := by
  rw [renderEntries?_cons_added hadded] at h
  obtain ⟨node, hnode, h⟩ := Option.bind_eq_some_iff.1 h
  obtain ⟨rest, hrest, h⟩ := Option.bind_eq_some_iff.1 h
  exact ⟨node, rest, hnode, hrest, (Option.some.inj h).symm⟩

end

section
variable {indent : Nat} {old : Tree} {olds : List Tree} {chunk : Chunk} {chunks : List Chunk}
  {value : Tree} {more : List Tree} {parts : List (List Char)}

/-- An item has the node of its chunk, and what trails it. -/
theorem renderItems?_cons_cons :
    renderItems? indent (old :: olds) (chunk :: chunks) (value :: more) =
      (renderNode? .sequence indent chunk old value (freshItemText? indent value)).bind fun node =>
        (renderItems? indent olds chunks more).bind fun rest =>
          some (node :: chunk.trailer.flatten :: rest) := by
  rw [renderItems?, renderNode?, lookInto?]
  split
  · rfl
  · cases (renderBlock? (blankDash indent chunk) old value).bind (restoreDash? indent) <;> rfl

theorem renderItems?_cons
    (h : renderItems? indent (old :: olds) (chunk :: chunks) (value :: more) = some parts) :
    ∃ node rest,
      renderNode? .sequence indent chunk old value (freshItemText? indent value) = some node ∧
      renderItems? indent olds chunks more = some rest ∧
      parts = node :: chunk.trailer.flatten :: rest := by
  rw [renderItems?_cons_cons] at h
  obtain ⟨node, hnode, h⟩ := Option.bind_eq_some_iff.1 h
  obtain ⟨rest, hrest, h⟩ := Option.bind_eq_some_iff.1 h
  exact ⟨node, rest, hnode, hrest, (Option.some.inj h).symm⟩

end

/-! ### Blocks -/

/-- How a block is rendered: as it is, or cut into chunks. -/
inductive Rendered (lines : List Line) : Tree → Tree → List Char → Prop
  | unchanged {old new : Tree} (h : old.same new) : Rendered lines old new lines.flatten
  | mapping {before entries : List Entry} {indent : Nat} {chunks : List Chunk}
      {keyed : List (Tree × Chunk)} {parts : List (List Char)}
      (hchanged : (Tree.mapping before).same (.mapping entries) = false)
      (hentries : entries ≠ [])
      (hcut : cut? .mapping lines = some (indent, chunks))
      (hkeyed : keyed? indent chunks = some keyed)
      (hparts : renderEntries? indent before keyed entries = some parts) :
      Rendered lines (.mapping before) (.mapping entries)
        (onOwnLines ((lines.takeWhile isBlankOrComment).flatten :: parts))
  | sequence {olds items : List Tree} {indent : Nat} {chunks : List Chunk}
      {parts : List (List Char)}
      (hchanged : (Tree.sequence olds).same (.sequence items) = false)
      (hlength : olds.length = items.length)
      (hchunks : chunks.length = olds.length)
      (hcut : cut? .sequence lines = some (indent, chunks))
      (hparts : renderItems? indent olds chunks items = some parts) :
      Rendered lines (.sequence olds) (.sequence items)
        (onOwnLines ((lines.takeWhile isBlankOrComment).flatten :: parts))

theorem rendered {lines : List Line} {old new : Tree} {out : List Char}
    (h : renderBlock? lines old new = some out) : Rendered lines old new out := by
  by_cases hsame : old.same new = true
  · obtain rfl : lines.flatten = out := by
      cases new <;> simpa [renderBlock?, hsame] using h
    exact .unchanged hsame
  cases new with
  | mapping entries =>
    rw [renderBlock?, if_neg hsame] at h
    dsimp only at h
    split at h
    · rename_i before first more hdrop
      split_ifs at h with hguard
      simp only [Bool.or_eq_true, not_or, Bool.not_eq_true] at hguard
      obtain ⟨⟨hitem, -⟩, hempty⟩ := hguard
      obtain ⟨chunks, hchunks, h⟩ := Option.bind_eq_some_iff.1 h
      obtain ⟨keyed, hkeyed, h⟩ := Option.bind_eq_some_iff.1 h
      obtain ⟨parts, hparts, h⟩ := Option.bind_eq_some_iff.1 h
      obtain rfl := Option.some.inj h
      have hcut := cut?_of_starts hdrop (by simp [hitem]) hchunks
      refine .mapping (Bool.eq_false_iff.2 hsame) ?_ hcut
        hkeyed hparts
      rintro rfl
      cases hempty
    · cases h
  | sequence items =>
    rw [renderBlock?, if_neg hsame] at h
    dsimp only at h
    split at h
    · rename_i olds first more hdrop
      split_ifs at h with hguard
      simp only [Bool.or_eq_true, not_or, Bool.not_eq_true, Bool.not_eq_false', decide_eq_true_eq,
        ne_eq, not_not] at hguard
      obtain ⟨⟨hitem, hlength⟩, -⟩ := hguard
      obtain ⟨chunks, hchunks, h⟩ := Option.bind_eq_some_iff.1 h
      split_ifs at h with hcount
      obtain ⟨parts, hparts, h⟩ := Option.bind_eq_some_iff.1 h
      obtain rfl := Option.some.inj h
      exact .sequence (Bool.eq_false_iff.2 hsame) hlength (not_not.1 hcount)
        (cut?_of_starts hdrop (by simpa using hitem) hchunks) hparts
    · cases h
  | null | bool | int | float | text | tagged => simp [renderBlock?, hsame] at h

/-- Nothing is looked into where there are no lines. -/
theorem ne_nil_of_renderBlock? {lines : List Line} {old new : Tree} {out : List Char}
    (hchanged : old.same new = false) (h : renderBlock? lines old new = some out) : lines ≠ [] := by
  rintro rfl
  cases rendered h with
  | unchanged hsame => rw [hsame] at hchanged; cases hchanged
  | mapping _ _ hcut => cases hcut
  | sequence _ _ _ hcut => cases hcut

end OperatorBundle.Layout
