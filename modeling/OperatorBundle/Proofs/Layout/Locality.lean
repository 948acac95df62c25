import Mathlib.Logic.Relation
import OperatorBundle.Proofs.Layout.Rendering
import OperatorBundle.Proofs.Layout.Script
import OperatorBundle.Proofs.Yaml.DistinctKeys

/-!
Locality of the layout. As long as the keys that are scanned off the lines of each mapping looked
into are the keys of its tree, and its new tree keeps them in order and adds others at the end, a
rendering is the source but for the nodes that changed and were not looked into, which are
rewritten, and the entries that were added, which stand at the end of their mappings.
-/

namespace OperatorBundle.Layout

open OperatorBundle.Text

/-! ### Edits -/

mutual
/-- The script for a block: which of its lines are kept, which are rewritten, and what is added. -/
inductive Edits : List Line → Tree → Tree → List Piece → Prop
  | unchanged {lines : List Line} {old new : Tree} (h : old.same new) :
    Edits lines old new (lines.map .kept)
  | mapping {lines : List Line} {before entries : List Entry} {indent : Nat} {chunks : List Chunk}
      {script : List Piece} (hcut : cut? .mapping lines = some (indent, chunks))
      (hentries : EntriesEdits indent chunks before entries script) :
    Edits lines (.mapping before) (.mapping entries)
      ((lines.takeWhile isBlankOrComment).map .kept ++ script)
  | sequence {lines : List Line} {olds items : List Tree} {indent : Nat} {chunks : List Chunk}
      {script : List Piece} (hcut : cut? .sequence lines = some (indent, chunks))
      (hitems : ItemsEdits indent chunks olds items script) :
    Edits lines (.sequence olds) (.sequence items)
      ((lines.takeWhile isBlankOrComment).map .kept ++ script)

/-- The script for the node of a chunk, of which `fresh` is the text if it is written anew. An
unchanged node is kept; of one that is looked into the line of its key, or its dash, is kept; any
other is rewritten. -/
inductive NodeEdits :
    BlockKind → Nat → Chunk → Tree → Tree → Option (List Char) → List Piece → Prop
  | kept {kind : BlockKind} {indent : Nat} {chunk : Chunk} {old new : Tree}
      {fresh : Option (List Char)} (h : old.same new) :
    NodeEdits kind indent chunk old new fresh (chunk.body.map .kept)
  | entry {indent : Nat} {chunk : Chunk} {old new : Tree} {fresh : Option (List Char)}
      {script : List Piece} (hchanged : old.same new = false)
      (hbelow : valueIsBelow indent chunk.first) (h : Edits chunk.nested old new script) :
    NodeEdits .mapping indent chunk old new fresh (.kept chunk.first :: script)
  | item {indent : Nat} {chunk : Chunk} {old new : Tree} {fresh : Option (List Char)}
      {script : List Piece} (hchanged : old.same new = false)
      (h : Edits (blankDash indent chunk) old new script) :
    NodeEdits .sequence indent chunk old new fresh (withDash indent script)
  | rewritten {kind : BlockKind} {indent : Nat} {chunk : Chunk} {old new : Tree}
      {text : List Char} (hchanged : old.same new = false)
      (hnot : lookInto? kind indent chunk old new = none) :
    NodeEdits kind indent chunk old new (some text) [.rewritten chunk.body text]

/-- The script for the entries of a mapping, the added ones at its end. -/
inductive EntriesEdits : Nat → List Chunk → List Entry → List Entry → List Piece → Prop
  | nil {indent : Nat} : EntriesEdits indent [] [] [] []
  | added {indent : Nat} {e : Entry} {entries : List Entry} {text : List Char}
      {script : List Piece} (h : freshEntryText? indent e.1 e.2 = some text)
      (hmore : EntriesEdits indent [] [] entries script) :
    EntriesEdits indent [] [] (e :: entries) (.added text :: script)
  | cons {indent : Nat} {chunk : Chunk} {chunks : List Chunk} {old new : Entry}
      {before entries : List Entry} {body script : List Piece}
      (h : NodeEdits .mapping indent chunk old.2 new.2 (freshEntryText? indent new.1 new.2) body)
      (hmore : EntriesEdits indent chunks before entries script) :
    EntriesEdits indent (chunk :: chunks) (old :: before) (new :: entries)
      (body ++ (chunk.trailer.map .kept ++ script))

/-- The script for the items of a sequence. -/
inductive ItemsEdits : Nat → List Chunk → List Tree → List Tree → List Piece → Prop
  | nil {indent : Nat} : ItemsEdits indent [] [] [] []
  | cons {indent : Nat} {chunk : Chunk} {chunks : List Chunk} {old new : Tree}
      {olds items : List Tree} {body script : List Piece}
      (h : NodeEdits .sequence indent chunk old new (freshItemText? indent new) body)
      (hmore : ItemsEdits indent chunks olds items script) :
    ItemsEdits indent (chunk :: chunks) (old :: olds) (new :: items)
      (body ++ (chunk.trailer.map .kept ++ script))
end

/-! ### Blocks that are looked into -/

/-- Lines with the tree that they were read as and the tree that they are rendered for. -/
structure Block where
  lines : List Line
  old : Tree
  new : Tree

/-- One step from a block into the value of an entry or item that is rendered in place. -/
inductive LooksInto : Block → Block → Prop
  | entry {lines : List Line} {before entries : List Entry} {indent : Nat} {chunks : List Chunk}
      {keyed : List (Tree × Chunk)} {key k old new : Tree} {chunk : Chunk}
      (hcut : cut? .mapping lines = some (indent, chunks))
      (hkeyed : keyed? indent chunks = some keyed)
      (hchunk : keyed.find? (fun c => c.1.same key) = some (k, chunk))
      (hold : Tree.lookupSame? key before = some old) (hnew : (key, new) ∈ entries)
      (hchanged : old.same new = false)
      (h : (lookInto? .mapping indent chunk old new).isSome) :
    LooksInto ⟨lines, .mapping before, .mapping entries⟩ ⟨chunk.inside .mapping indent, old, new⟩
  | item {lines : List Line} {olds items : List Tree} {indent : Nat} {chunks : List Chunk}
      {i : Nat} {chunk : Chunk} {old new : Tree}
      (hcut : cut? .sequence lines = some (indent, chunks))
      (hchunk : chunks[i]? = some chunk) (hold : olds[i]? = some old)
      (hnew : items[i]? = some new) (hchanged : old.same new = false)
      (h : (lookInto? .sequence indent chunk old new).isSome) :
    LooksInto ⟨lines, .sequence olds, .sequence items⟩ ⟨chunk.inside .sequence indent, old, new⟩

/-- The keys of a mapping in place: those scanned off its lines are those of its entries, in order,
and the new entries have them too, before any others. -/
structure KeysInPlace (lines : List Line) (before entries : List Entry) : Prop where
  scanned : ∀ keys, scannedKeys? lines = some keys →
    List.Forall₂ (fun key (e : Entry) => key.same e.1) keys before
  extended : ∃ kept added, entries = kept ++ added ∧
    List.Forall₂ (fun (e e' : Entry) => e.1.same e'.1) before kept

/-- The keys of a block in place, if it is a mapping that changed. -/
def Block.InPlace (b : Block) : Prop :=
  ∀ before entries, b.old = .mapping before → b.new = .mapping entries →
    b.old.same b.new = false → KeysInPlace b.lines before entries

/-- A block whose keys are in place, at every level that is looked into. -/
def Block.Aligned (b : Block) : Prop :=
  ∀ inner, Relation.ReflTransGen LooksInto b inner → inner.InPlace

theorem Block.Aligned.inner {b c : Block} (h : b.Aligned) (hstep : LooksInto b c) : c.Aligned :=
  fun inner hinner => h inner (.head hstep hinner)

/-! ### Nodes -/

/-- What is to be shown of the blocks rendered for a pair of trees. -/
def Local (old new : Tree) : Prop :=
  ∀ lines out, AreLines lines → Block.Aligned ⟨lines, old, new⟩ →
    renderBlock? lines old new = some out →
      ∃ script, Edits lines old new script ∧ Turns lines out script

/-- The node of an entry that is looked into. -/
theorem exists_script_of_entry {indent : Nat} {chunk : Chunk} {old new : Tree} {node : List Char}
    (hlines : AreLines chunk.body) (hlocal : Local old new)
    (haligned : Block.Aligned ⟨chunk.inside .mapping indent, old, new⟩)
    (hchanged : old.same new = false)
    (h : lookInto? .mapping indent chunk old new = some node) (fresh : Option (List Char)) :
    ∃ script, NodeEdits .mapping indent chunk old new fresh script ∧
      Turns chunk.body node script := by
  obtain ⟨hbelow, text, htext, rfl⟩ := lookInto?_mapping_eq_some.1 h
  have hnested : AreLines chunk.nested := hlines.of_isInfix (List.suffix_cons _ _).isInfix
  obtain ⟨script, hedits, hturns⟩ := hlocal chunk.nested text hnested haligned htext
  refine ⟨_, .entry hchanged hbelow hedits, ?_⟩
  have hfirst : AreLines [chunk.first] :=
    hlines.of_isInfix (List.prefix_append [chunk.first] chunk.nested).isInfix
  have hlast := getLast?_first hlines (ne_nil_of_renderBlock? hchanged htext)
  have happend := (Turns.kept hfirst).append hturns (by simp)
  rwa [List.flatten_singleton, joined_of_ended hlast] at happend

/-- The node of an item that is looked into. -/
theorem exists_script_of_item {indent : Nat} {chunk : Chunk} {old new : Tree} {node : List Char}
    (hlines : AreLines chunk.body) (hrole : lineRole .sequence indent chunk.first = .starts)
    (hlocal : Local old new) (haligned : Block.Aligned ⟨chunk.inside .sequence indent, old, new⟩)
    (hchanged : old.same new = false)
    (h : lookInto? .sequence indent chunk old new = some node) (fresh : Option (List Char)) :
    ∃ script, NodeEdits .sequence indent chunk old new fresh script ∧
      Turns chunk.body node script := by
  obtain ⟨text, htext, -, rfl⟩ := lookInto?_sequence_eq_some.1 h
  obtain ⟨script, hedits, hturns⟩ :=
    hlocal _ text (areLines_blankDash hlines hrole) haligned htext
  refine ⟨_, .item hchanged hedits, ?_⟩
  obtain ⟨more, hmore⟩ := exists_dash hrole
  rw [blankDash, hmore, set_spaces] at hturns
  rw [Chunk.body, hmore]
  exact hturns.dash

theorem exists_script_of_node {kind : BlockKind} {indent : Nat} {chunk : Chunk} {old new : Tree}
    {fresh : Option (List Char)} {node : List Char} (hlines : AreLines chunk.body)
    (hrole : lineRole kind indent chunk.first = .starts) (hlocal : Local old new)
    (haligned : old.same new = false → (lookInto? kind indent chunk old new).isSome →
      Block.Aligned ⟨chunk.inside kind indent, old, new⟩)
    (hfresh : ∀ text, fresh = some text → StartsAt indent text)
    (h : renderNode? kind indent chunk old new fresh = some node) :
    ∃ script, NodeEdits kind indent chunk old new fresh script ∧ Turns chunk.body node script := by
  rcases renderNode?_cases h with ⟨hsame, rfl⟩ | ⟨hsame, hlook⟩ | ⟨hsame, hlook, rfl⟩
  · exact ⟨_, .kept hsame, .kept hlines⟩
  · have haligned := haligned hsame (by rw [hlook]; rfl)
    cases kind with
    | mapping => exact exists_script_of_entry hlines hlocal haligned hsame hlook fresh
    | sequence => exact exists_script_of_item hlines hrole hlocal haligned hsame hlook fresh
  · refine ⟨_, .rewritten hsame hlook, .rewritten ?_⟩
    rw [(lineRole_eq_starts hrole).2.1]
    exact hfresh node rfl

/-- A node, the lines that trail it, and the parts after them. -/
theorem Turns.cons_chunk {chunk : Chunk} {lines : List Line} {node : List Char}
    {parts : List (List Char)} {body script : List Piece} (hlines : AreLines chunk.lines)
    (hbody : Turns chunk.body node body) (hmore : Turns lines (onOwnLines parts) script) :
    Turns (chunk.lines ++ lines) (onOwnLines (node :: chunk.trailer.flatten :: parts))
      (body ++ (chunk.trailer.map .kept ++ script)) := by
  have htrailer : AreLines chunk.trailer := hlines.of_isInfix chunk.trailer_isInfix
  have hrest : chunk.trailer = [] → chunk.trailer.map Piece.kept = [] ∨ lines = [] := by
    intro hnil
    exact .inl (by rw [hnil, List.map_nil])
  have h := hbody.append ((Turns.kept htrailer).append hmore hrest) (by simp [Chunk.body])
  rwa [← onOwnLines_cons, ← onOwnLines_cons, ← List.append_assoc] at h

/-! ### Entries -/

section Entries

variable {before entries : List Entry} {keyed : List (Tree × Chunk)}

/-- The entries of a mapping in place, as far as they are rendered together. -/
structure EntriesInPlace (before : List Entry) (keyed : List (Tree × Chunk))
    (entries : List Entry) : Prop where
  beforeUnique : (Tree.mapping before).uniqueKeys
  entriesUnique : (Tree.mapping entries).uniqueKeys
  scannedUnique : ∀ c ∈ keyed, c.1.uniqueKeys
  scanned : List.Forall₂ (fun (c : Tree × Chunk) (e : Entry) => c.1.same e.1) keyed before

/-- An entry that was added is found nowhere. -/
theorem EntriesInPlace.find?_added {kept added : List Entry}
    (h : EntriesInPlace before keyed (kept ++ added))
    (hkept : List.Forall₂ (fun (e e' : Entry) => e.1.same e'.1) before kept) :
    ∀ e ∈ added, keyed.find? (fun c => c.1.same e.1) = none := by
  intro e he
  rw [List.find?_eq_none]
  intro c hc hfound
  obtain ⟨hdiffer, hunique⟩ := Tree.uniqueKeys_mapping.1 h.entriesUnique
  obtain ⟨b, hb, hcb⟩ := Tree.exists_of_forall₂ h.scanned hc
  obtain ⟨k, hk, hbk⟩ := Tree.exists_of_forall₂ hkept hb
  have hkey := (hunique e (List.mem_append_right _ he)).1
  have hkeyk := (hunique k (List.mem_append_left _ hk)).1
  have hkeyb := ((Tree.uniqueKeys_mapping.1 h.beforeUnique).2 b hb).1
  have hkeyc := h.scannedUnique c hc
  have hsame : e.1.same k.1 :=
    Tree.same_trans hkey hkeyc hkeyk (Tree.same_symm hkeyc hkey hfound)
      (Tree.same_trans hkeyc hkeyb hkeyk hcb hbk)
  rw [(List.pairwise_append.1 hdiffer).2.2 k hk e he] at hsame
  cases hsame

theorem exists_script_of_added {indent : Nat} {added : List Entry} {parts : List (List Char)}
    (hfind : ∀ e ∈ added, keyed.find? (fun c => c.1.same e.1) = none)
    (h : renderEntries? indent before keyed added = some parts) :
    ∃ script, EntriesEdits indent [] [] added script ∧ Turns [] (onOwnLines parts) script := by
  induction added generalizing parts with
  | nil =>
    obtain rfl : [] = parts := by simpa [renderEntries?] using h
    exact ⟨[], .nil, .nil⟩
  | cons e added ih =>
    obtain ⟨hnone, hfind⟩ := List.forall_mem_cons.1 hfind
    obtain ⟨node, rest, hnode, hrest, rfl⟩ := renderEntries?_of_added (.inl hnone) h
    obtain ⟨script, hedits, hturns⟩ := ih hfind hrest
    refine ⟨.added node :: script, .added hnode hedits, ?_⟩
    exact (Turns.added (startsAt_freshEntryText hnode)).append hturns fun _ => .inr rfl

/-- The entries from one on, with what is known of the whole mapping. -/
theorem exists_script_of_entries {indent : Nat} {kept added rest : List Entry}
    {scanned : List (Tree × Chunk)} {parts : List (List Char)}
    (h : EntriesInPlace before keyed entries)
    (hrest : List.Forall₂ (fun (e e' : Entry) => e.1.same e'.1) rest kept)
    (hlength : scanned.length = rest.length)
    (hmem : ∀ p ∈ scanned.zip rest, p ∈ keyed.zip before)
    (hentries : ∀ e ∈ kept, e ∈ entries)
    (hadded : ∀ e ∈ added, keyed.find? (fun c => c.1.same e.1) = none)
    (hchunks : ∀ c ∈ scanned, AreLines c.2.lines ∧ lineRole .mapping indent c.2.first = .starts)
    (hlocal : ∀ e ∈ kept, ∀ old, (old.uniqueKeys) → Local old e.2)
    (haligned : ∀ key k new old chunk, (key, new) ∈ entries →
      keyed.find? (fun c => c.1.same key) = some (k, chunk) →
      Tree.lookupSame? key before = some old → old.same new = false →
      (lookInto? .mapping indent chunk old new).isSome →
      Block.Aligned ⟨chunk.inside .mapping indent, old, new⟩)
    (hparts : renderEntries? indent before keyed (kept ++ added) = some parts) :
    ∃ script, EntriesEdits indent (scanned.map (·.2)) rest (kept ++ added) script ∧
      Turns (scanned.flatMap (·.2.lines)) (onOwnLines parts) script := by
  induction hrest generalizing scanned parts with
  | nil =>
    obtain rfl := List.length_eq_zero_iff.1 hlength
    exact exists_script_of_added hadded hparts
  | @cons e e' rest kept hsame hrest ih =>
    obtain ⟨⟨k, chunk⟩, scanned, rfl⟩ := List.exists_cons_of_length_eq_add_one hlength
    rw [List.zip_cons_cons, List.forall_mem_cons] at hmem
    obtain ⟨hfirst, hmem⟩ := hmem
    obtain ⟨he', hentries⟩ := List.forall_mem_cons.1 hentries
    obtain ⟨⟨hlines, hrole⟩, hchunks⟩ := List.forall_mem_cons.1 hchunks
    obtain ⟨hlocal', hlocal⟩ := List.forall_mem_cons.1 hlocal
    obtain ⟨hdiffer, hunique⟩ := Tree.uniqueKeys_mapping.1 h.beforeUnique
    have he : e ∈ before := (List.of_mem_zip hfirst).2
    have hkey : e'.1.uniqueKeys := ((Tree.uniqueKeys_mapping.1 h.entriesUnique).2 e' he').1
    have hfind := find?_scanned h.scanned hdiffer (fun b hb => (hunique b hb).1) h.scannedUnique
      hkey hfirst hsame
    have hlookup := Tree.lookupSame?_same hdiffer (fun b hb => (hunique b hb).1) hkey he
      (Tree.same_symm (hunique e he).1 hkey hsame)
    obtain ⟨node, others, hnode, hothers, rfl⟩ := renderEntries?_of_found hfind hlookup hparts
    obtain ⟨body, hbody, hturns⟩ := exists_script_of_node
      (hlines.of_isInfix chunk.body_isInfix) hrole (hlocal' e.2 (hunique e he).2)
      (haligned e'.1 k e'.2 e.2 chunk he' hfind hlookup)
      (fun text htext => startsAt_freshEntryText htext) hnode
    obtain ⟨script, hedits, hmore⟩ := ih (by simpa using hlength) hmem hentries hchunks hlocal
      hothers
    refine ⟨_, .cons hbody hedits, ?_⟩
    rw [List.flatMap_cons]
    exact Turns.cons_chunk hlines hturns hmore

end Entries

/-! ### Items -/

theorem exists_script_of_items {indent : Nat} {chunks : List Chunk} {olds items : List Tree}
    {parts : List (List Char)} (hlength : olds.length = items.length)
    (hcount : chunks.length = olds.length)
    (hchunks : ∀ c ∈ chunks, AreLines c.lines ∧ lineRole .sequence indent c.first = .starts)
    (hlocal : ∀ p ∈ olds.zip items, Local p.1 p.2)
    (haligned : ∀ (i : Nat) (chunk : Chunk) (old new : Tree), chunks[i]? = some chunk →
      olds[i]? = some old → items[i]? = some new → old.same new = false →
      (lookInto? .sequence indent chunk old new).isSome →
      Block.Aligned ⟨chunk.inside .sequence indent, old, new⟩)
    (hparts : renderItems? indent olds chunks items = some parts) :
    ∃ script, ItemsEdits indent chunks olds items script ∧
      Turns (chunks.flatMap Chunk.lines) (onOwnLines parts) script := by
  induction olds generalizing chunks items parts with
  | nil =>
    obtain rfl := List.length_eq_zero_iff.1 hcount
    obtain rfl := List.length_eq_zero_iff.1 hlength.symm
    obtain rfl : [] = parts := by simpa [renderItems?] using hparts
    exact ⟨[], .nil, .nil⟩
  | cons old olds ih =>
    obtain ⟨chunk, chunks, rfl⟩ := List.exists_cons_of_length_eq_add_one hcount
    obtain ⟨new, items, rfl⟩ := List.exists_cons_of_length_eq_add_one hlength.symm
    obtain ⟨⟨hlines, hrole⟩, hchunks⟩ := List.forall_mem_cons.1 hchunks
    rw [List.zip_cons_cons, List.forall_mem_cons] at hlocal
    obtain ⟨hlocal', hlocal⟩ := hlocal
    obtain ⟨node, others, hnode, hothers, rfl⟩ := renderItems?_cons hparts
    obtain ⟨body, hbody, hturns⟩ := exists_script_of_node
      (hlines.of_isInfix chunk.body_isInfix) hrole hlocal' (haligned 0 chunk old new rfl rfl rfl)
      (fun text htext => startsAt_freshItemText htext) hnode
    obtain ⟨script, hedits, hmore⟩ := ih (by simpa using hlength) (by simpa using hcount) hchunks
      hlocal (fun i => haligned (i + 1)) hothers
    refine ⟨_, .cons hbody hedits, ?_⟩
    rw [List.flatMap_cons]
    exact Turns.cons_chunk hlines hturns hmore

/-! ### Blocks -/

/-- A collection that is cut: the lines that lead it are kept, and the scripts of its chunks
follow. -/
theorem Turns.of_cut {kind : BlockKind} {lines : List Line} {indent : Nat} {chunks : List Chunk}
    {parts : List (List Char)} {script : List Piece} (hlines : AreLines lines)
    (hcut : cut? kind lines = some (indent, chunks))
    (h : Turns (chunks.flatMap Chunk.lines) (onOwnLines parts) script) :
    Turns lines (onOwnLines ((lines.takeWhile isBlankOrComment).flatten :: parts))
      ((lines.takeWhile isBlankOrComment).map .kept ++ script) := by
  have hlead : AreLines (lines.takeWhile isBlankOrComment) :=
    hlines.of_isInfix (List.takeWhile_prefix _).isInfix
  have happend := (Turns.kept hlead).append h fun hnil => .inl (by rw [hnil, List.map_nil])
  rwa [lines_of_cut? hcut, ← onOwnLines_cons] at happend

theorem local_mapping {before entries : List Entry} (hbefore : (Tree.mapping before).uniqueKeys)
    (hentries : (Tree.mapping entries).uniqueKeys)
    (hlocal : ∀ e ∈ entries, ∀ old, (old.uniqueKeys) → Local old e.2) :
    Local (.mapping before) (.mapping entries) := by
  intro lines out hlines haligned h
  cases rendered h with
  | unchanged hsame => exact ⟨_, .unchanged hsame, .kept hlines⟩
  | @mapping _ _ indent chunks keyed parts hchanged _ hcut hkeyed hparts =>
    -- the entries that were there before stand in the order of the chunks, the added ones behind
    have hplace := haligned _ .refl before entries rfl rfl hchanged
    have hscanned := hplace.scanned (keyed.map (·.1)) (by simp [scannedKeys?, hcut, hkeyed])
    rw [List.forall₂_map_left_iff] at hscanned
    obtain ⟨kept, added, rfl, hkept⟩ := hplace.extended
    obtain ⟨rfl, hunique⟩ := keyed?_eq_some hkeyed
    have hin : EntriesInPlace before keyed (kept ++ added) := ⟨hbefore, hentries, hunique, hscanned⟩
    have hroles := starts_of_chunksAfter? (cut?_eq_some hcut)
    obtain ⟨script, hedits, hturns⟩ := exists_script_of_entries hin hkept hscanned.length_eq
      (fun p hp => hp) (fun e he => List.mem_append_left _ he) (hin.find?_added hkept)
      (fun c hc => ⟨hlines.of_cut? hcut _ (List.mem_map_of_mem hc),
        hroles _ (List.mem_map_of_mem hc)⟩)
      (fun e he => hlocal e (List.mem_append_left _ he))
      (fun key k new old chunk hnew hchunk hold hdiff hlook =>
        haligned.inner (.entry hcut hkeyed hchunk hold hnew hdiff hlook))
      hparts
    refine ⟨_, .mapping hcut hedits, .of_cut hlines hcut ?_⟩
    rwa [List.flatMap_map]

theorem local_sequence {olds items : List Tree} (hlocal : ∀ p ∈ olds.zip items, Local p.1 p.2) :
    Local (.sequence olds) (.sequence items) := by
  intro lines out hlines haligned h
  cases rendered h with
  | unchanged hsame => exact ⟨_, .unchanged hsame, .kept hlines⟩
  | @sequence _ _ indent chunks parts _ hlength hcount hcut hparts =>
    have hroles := starts_of_chunksAfter? (cut?_eq_some hcut)
    obtain ⟨script, hedits, hturns⟩ := exists_script_of_items hlength hcount
      (fun c hc => ⟨hlines.of_cut? hcut c hc, hroles c hc⟩) hlocal
      (fun i chunk old new hchunk hold hnew hdiff hlook =>
        haligned.inner (.item hcut hchunk hold hnew hdiff hlook))
      hparts
    exact ⟨_, .sequence hcut hedits, .of_cut hlines hcut hturns⟩

theorem local_of_uniqueKeys {new : Tree} (hnew : new.uniqueKeys) {old : Tree}
    (hold : old.uniqueKeys) : Local old new := by
  induction new using Tree.inductionOn generalizing old with
  | sequence items ih =>
    intro lines out hlines haligned h
    cases rendered h with
    | unchanged hsame => exact ⟨_, .unchanged hsame, .kept hlines⟩
    | @sequence olds =>
      refine local_sequence (fun p hp => ?_) lines _ hlines haligned h
      obtain ⟨hpold, hpnew⟩ := List.of_mem_zip hp
      exact ih p.2 hpnew (Tree.uniqueKeys_sequence.1 hnew p.2 hpnew)
        (Tree.uniqueKeys_sequence.1 hold p.1 hpold)
  | mapping entries ih =>
    intro lines out hlines haligned h
    cases rendered h with
    | unchanged hsame => exact ⟨_, .unchanged hsame, .kept hlines⟩
    | @mapping before =>
      refine local_mapping hold hnew (fun e he old hunique => ?_) lines _ hlines haligned h
      exact (ih e he).2 ((Tree.uniqueKeys_mapping.1 hnew).2 e he).2 hunique
  | null | bool | int | float | text | tagged =>
    intro lines out hlines _ h
    cases rendered h with
    | unchanged hsame => exact ⟨_, .unchanged hsame, .kept hlines⟩

/-- **A rendering is local.** If the keys are in place wherever it looks, it is the source but for
its edits: each line of the source stands in one piece of the script, in order, and what is not
rewritten stands in the text as it is. -/
theorem exists_script_of_renderLayout? {source out : String} {old new : Tree}
    (hold : old.uniqueKeys) (hnew : new.uniqueKeys)
    (haligned : Block.Aligned ⟨lines source.toList, old, new⟩)
    (h : renderLayout? source old new = some out) :
    ∃ script, Edits (lines source.toList) old new script ∧
      script.flatMap Piece.source = lines source.toList ∧ scriptText script = out.toList := by
  obtain ⟨text, htext, rfl⟩ := Option.map_eq_some_iff.1 h
  obtain ⟨script, hedits, hturns⟩ :=
    local_of_uniqueKeys hnew hold _ text (areLines_lines _) haligned htext
  exact ⟨script, hedits, hturns.source, by rw [hturns.scriptText_eq, String.toList_ofList]⟩

theorem Block.Aligned.of_steps {b : Block} (hplace : b.InPlace)
    (hsteps : ∀ c, LooksInto b c → c.Aligned) : b.Aligned := by
  intro inner hinner
  rcases hinner.cases_head with rfl | ⟨c, hstep, hrest⟩
  · exact hplace
  · exact hsteps c hstep inner hrest

/-- A changed entry of an item is rewritten and another is added below it; the dash and the comments
stay. -/
theorem exists_script_of_changed_item :
    ∃ script, Edits (lines "- a: 1 # one\n  b: 2\n# c\n- 3\n".toList)
        (.sequence [.mapping [(.text "a", .int 1), (.text "b", .int 2)], .int 3])
        (.sequence [.mapping [(.text "a", .int 1), (.text "b", .int 7), (.text "c", .null)],
          .int 3])
        script ∧
      script.flatMap Piece.source = lines "- a: 1 # one\n  b: 2\n# c\n- 3\n".toList ∧
      scriptText script = "- a: 1 # one\n  b: 7\n  c: null\n# c\n- 3\n".toList := by
  refine exists_script_of_renderLayout? (by decide) (by decide) ?_ (by decide +kernel)
  refine .of_steps (by rintro _ _ ⟨⟩) ?_
  intro c hc
  cases hc with
  | @item _ _ _ indent chunks i chunk old new hcut hchunk hold hnew hchanged =>
    have hchunks : cut? .sequence (lines "- a: 1 # one\n  b: 2\n# c\n- 3\n".toList) =
        some (0, [⟨"- a: 1 # one\n".toList, ["  b: 2\n".toList], ["# c\n".toList]⟩,
          ⟨"- 3\n".toList, [], []⟩]) := by decide +kernel
    obtain ⟨rfl, rfl⟩ := Prod.mk.inj (Option.some.inj (hchunks.symm.trans hcut))
    match i with
    | 0 =>
      obtain rfl := Option.some.inj hchunk
      obtain rfl := Option.some.inj hold
      obtain rfl := Option.some.inj hnew
      refine .of_steps ?_ fun c hc => ?_
      · rintro _ _ ⟨⟩ ⟨⟩ -
        refine ⟨fun keys hkeys => ?_, _, [(.text "c", .null)], rfl, .cons rfl (.cons rfl .nil)⟩
        have hsame : (scannedKeys? ["  a: 1 # one\n".toList, "  b: 2\n".toList]).all
            (Tree.sameItems · [.text "a", .text "b"]) := by decide +kernel
        have hscanned := (Option.all_eq_true _ _).1 hsame keys hkeys
        exact List.forall₂_map_right_iff.1 (Tree.sameItems_iff.1 hscanned)
      · cases hc with
        | entry _ _ _ hold hnew hchanged h =>
          simp only [List.mem_cons, Prod.mk.injEq, List.not_mem_nil, or_false] at hnew
          rcases hnew with ⟨rfl, rfl⟩ | ⟨rfl, rfl⟩ | ⟨rfl, rfl⟩
          · cases hold
            cases hchanged
          · -- a number is not looked into
            cases hold
            simp [lookInto?, renderBlock?, Tree.same] at h
          · cases hold
    | 1 =>
      obtain rfl := Option.some.inj hold
      obtain rfl := Option.some.inj hnew
      cases hchanged
    | i + 2 => cases hold

end OperatorBundle.Layout
