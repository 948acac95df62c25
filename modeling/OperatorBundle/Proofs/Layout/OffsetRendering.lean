import OperatorBundle.Proofs.Layout.Indentation
import OperatorBundle.Proofs.Layout.KeyOffsets
import OperatorBundle.Proofs.Layout.Spans

/-!
Renderings by offsets. A document is rendered once more, with each text cut at an offset in bytes
and each entry and item taken by the numbers of its lines; the dash of an item is blanked and put
back as a byte. What takes no offset or number (trimming, joining, writing anew) is as in the
rendering in chunks. Whatever the source and the two trees are, no access fails, and the result is
that rendering.

* `Scan.entryNode_eq`, `Scan.itemNode_eq`: the accesses of one entry or item.
* `endsWithoutFault`: those of a block, at any depth.
* `layout_ends_without_fault`: those of a whole rendering.
-/

namespace OperatorBundle.Layout

open OperatorBundle.Text Scan

/-! ### Accesses of a rendering -/

/-- Where a block starts: the number of its first line, the indentation of that line, and its text
from there on. -/
def Scan.opening (lines : List Line) : Scan (Nat × Nat × List Char) := do
  let first ← ended (lines.findIdx? fun line => !isBlankOrComment line)
  let line ← lineAt lines first
  let indent ← indentOf line
  let text ← textAt indent line
  pure (first, indent, text)

/-- The key of the entry at a span, and what follows its colon. -/
def Scan.keyAt (lines : List Line) (indent : Nat) (span : Span) :
    Scan (List Char × List Char) := do
  let line ← lineAt lines span.start
  let text ← textAt indent line
  splitKey text

/-- The spans of a mapping with their keys. -/
def Scan.keyed (lines : List Line) (indent : Nat) : List Span → Scan (List (Tree × Span))
  | [] => pure []
  | span :: more => do
    let (written, _) ← keyAt lines indent span
    let key ← ended (Tree.ofYaml (String.ofList written)).toOption
    let others ← keyed lines indent more
    pure ((key, span) :: others)

/-- Whether nothing but a comment follows a key on its line. -/
def isBelow (rest : List Char) : Bool :=
  match trim rest with
  | [] => true
  | c :: _ => c = '#'

/-- The node of an entry: kept, or its key with its value rendered by `block`, or written anew. -/
def Scan.entryNode (lines : List Line) (indent : Nat) (span : Span) (kept : Bool)
    (block : List Line → Scan (List Char)) (fresh : Option (List Char)) : Scan (List Char) :=
  if kept then do
    let body ← linesBetween lines span.start span.bodyEnd
    pure body.flatten
  else do
    let (_, rest) ← keyAt lines indent span
    let nested ←
      if isBelow rest then do
        let below ← linesBetween lines (span.start + 1) span.bodyEnd
        (block below).attempt
      else pure none
    match nested with
    | some text => do
      let first ← lineAt lines span.start
      pure (first ++ text)
    | none => ended fresh

/-- An item with its dash blanked, rendered by `block`, and with its dash put back. -/
def Scan.dashed (indent : Nat) (item : List Line) (block : List Line → Scan (List Char)) :
    Scan (List Char) := do
  let first ← lineAt item 0
  let blanked ← withByte indent ' ' first
  let text ← block (item.set 0 blanked)
  if (bytes text)[indent]? = some ' '.toUInt8 then withByte indent '-' text else failure

/-- The node of an item: kept, or rendered without its dash, or written anew. -/
def Scan.itemNode (lines : List Line) (indent : Nat) (span : Span) (kept : Bool)
    (block : List Line → Scan (List Char)) (fresh : Option (List Char)) : Scan (List Char) := do
  let body ← linesBetween lines span.start span.bodyEnd
  if kept then pure body.flatten
  else do
    let rendered ← (dashed indent body block).attempt
    match rendered with
    | some text => pure text
    | none => ended fresh

mutual
/-- The lines of a block rendered for a changed tree, access by access. -/
def Scan.block (lines : List Line) (old : Tree) : Tree → Scan (List Char)
  | .mapping entries =>
    if old.same (.mapping entries) then pure lines.flatten
    else do
      let (first, indent, text) ← opening lines
      match old with
      | .mapping before =>
        if isItem text then failure
        else do
          let key ← (splitKey text).attempt
          if key.isNone || entries.isEmpty then failure
          else do
            let found ← spans .mapping lines first indent
            let keyed ← keyed lines indent found
            let lead ← linesBetween lines 0 first
            let parts ← Scan.entries lines indent before keyed entries
            pure (onOwnLines (lead.flatten :: parts))
      | _ => failure
  | .sequence items =>
    if old.same (.sequence items) then pure lines.flatten
    else do
      let (first, indent, text) ← opening lines
      match old with
      | .sequence before =>
        if !isItem text || before.length ≠ items.length || items.isEmpty then failure
        else do
          let found ← spans .sequence lines first indent
          if found.length ≠ before.length then failure
          else do
            let lead ← linesBetween lines 0 first
            let parts ← Scan.items lines indent before found items
            pure (onOwnLines (lead.flatten :: parts))
      | _ => failure
  | new =>
    if old.same new then pure lines.flatten
    else do
      let _ ← opening lines
      failure

/-- The parts of a rendered mapping, access by access. -/
def Scan.entries (lines : List Line) (indent : Nat) (before : List Entry)
    (keyed : List (Tree × Span)) : List (Tree × Tree) → Scan (List (List Char))
  | [] => pure []
  | (key, value) :: more =>
    match keyed.find? fun c => c.1.same key, Tree.lookupSame? key before with
    | some (_, span), some old => do
      let node ← entryNode lines indent span (old.same value)
        (fun below => Scan.block below old value) (freshEntryText? indent key value)
      let trailer ← linesBetween lines span.bodyEnd span.stop
      let parts ← Scan.entries lines indent before keyed more
      pure (node :: trailer.flatten :: parts)
    | _, _ => do
      let node ← ended (freshEntryText? indent key value)
      let parts ← Scan.entries lines indent before keyed more
      pure (node :: parts)

/-- The parts of a rendered sequence, access by access. -/
def Scan.items (lines : List Line) (indent : Nat) :
    List Tree → List Span → List Tree → Scan (List (List Char))
  | old :: olds, span :: spans, value :: more => do
    let node ← itemNode lines indent span (old.same value)
      (fun item => Scan.block item old value) (freshItemText? indent value)
    let trailer ← linesBetween lines span.bodyEnd span.stop
    let parts ← Scan.items lines indent olds spans more
    pure (node :: trailer.flatten :: parts)
  | _, _, _ => pure []
end

/-- A changed document in the layout of the text that the old one was read from, access by
access. -/
def Scan.layout (source : String) (old new : Tree) : Scan String := do
  let text ← block (Text.lines source.toList) old new
  pure (String.ofList text)

/-! ### Openings -/

theorem findIdx?_dropWhile {lines : List Line} {first : Line} {more : List Line}
    (h : lines.dropWhile isBlankOrComment = first :: more) :
    (lines.findIdx? fun line => !isBlankOrComment line) =
      some (lines.takeWhile isBlankOrComment).length := by
  induction lines with
  | nil => cases h
  | cons line lines ih =>
    by_cases hblank : isBlankOrComment line = true
    · rw [List.dropWhile_cons_of_pos hblank] at h
      simp [List.findIdx?_cons, hblank, ih h]
    · simp [List.findIdx?_cons, hblank]

/-- A block behind the lines that lead it. -/
theorem takeWhile_append_of_dropWhile {lines : List Line} {first : Line} {more : List Line}
    (h : lines.dropWhile isBlankOrComment = first :: more) :
    lines.takeWhile isBlankOrComment ++ first :: more = lines := by
  rw [← h, List.takeWhile_append_dropWhile]

theorem linesBetween_lead {lines lead rest : List Line} (h : lead ++ rest = lines) :
    linesBetween lines 0 lead.length = ended (some lead) :=
  linesBetween_eq.2 ⟨[], rest, by rw [← h, List.nil_append], rfl, by simp⟩

theorem Scan.opening_eq {lines : List Line} {first : Line} {more : List Line}
    (h : lines.dropWhile isBlankOrComment = first :: more) :
    opening lines = ended (some ((lines.takeWhile isBlankOrComment).length, indentation first,
      textFrom (indentation first) first)) := by
  have hline : lineAt lines (lines.takeWhile isBlankOrComment).length = ended (some first) := by
    have hlines := takeWhile_append_of_dropWhile h
    generalize lines.takeWhile isBlankOrComment = lead at hlines ⊢
    rw [lineAt_eq, ← hlines]
    simp
  rw [opening, findIdx?_dropWhile h, some_bind, hline, some_bind, indentOf_eq, some_bind,
    textAt_eq (isBlankOrComment_of_dropWhile h), some_bind, pure_eq]

theorem Scan.opening_eq_none {lines : List Line} (h : lines.dropWhile isBlankOrComment = []) :
    opening lines = ended none := by
  have hnone : (lines.findIdx? fun line => !isBlankOrComment line) = none := by
    rw [List.findIdx?_eq_none_iff]
    intro line hline
    simp [List.dropWhile_eq_nil_iff.1 h line hline]
  rw [opening, hnone, none_bind]

theorem Scan.exists_opening_eq (lines : List Line) : ∃ found, opening lines = ended found := by
  cases hdrop : lines.dropWhile isBlankOrComment with
  | nil => exact ⟨none, opening_eq_none hdrop⟩
  | cons first more => exact ⟨_, opening_eq hdrop⟩

/-! ### Keys -/

theorem Scan.keyAt_eq {lines : List Line} {indent : Nat} {span : Span} {chunk : Chunk}
    {kind : BlockKind} (hat : Span.At lines span chunk)
    (hfirst : lineRole kind indent chunk.first = .starts) :
    keyAt lines indent span = ended (splitKey? (textFrom indent chunk.first)) := by
  obtain ⟨hblank, rfl, -⟩ := lineRole_eq_starts hfirst
  rw [keyAt, hat.lineAt_start, some_bind, textAt_eq hblank, some_bind, splitKey_eq]

/-- A span with a key is a chunk with that key, at an entry whose key is cut out of its line. -/
structure KeyedAt (lines : List Line) (indent : Nat) (c : Tree × Span) (d : Tree × Chunk) :
    Prop where
  key : c.1 = d.1
  span : Span.At lines c.2 d.2
  starts : lineRole .mapping indent d.2.first = .starts
  split : (splitKey? (textFrom indent d.2.first)).isSome

/-- **The keys of the spans are those of the chunks.** -/
theorem Scan.keyed_eq {lines : List Line} {indent : Nat} {spans : List Span} {chunks : List Chunk}
    (hat : List.Forall₂ (Span.At lines) spans chunks)
    (hstarts : ∀ chunk ∈ chunks, lineRole .mapping indent chunk.first = .starts) :
    (keyed? indent chunks = none ∧ keyed lines indent spans = ended none) ∨
      ∃ found scanned, keyed? indent chunks = some found ∧
        keyed lines indent spans = ended (some scanned) ∧
        List.Forall₂ (KeyedAt lines indent) scanned found := by
  induction hat with
  | nil => exact .inr ⟨[], [], rfl, rfl, .nil⟩
  | @cons span chunk spans chunks hspan hat ih =>
    obtain ⟨hfirst, hstarts⟩ := List.forall_mem_cons.1 hstarts
    rw [keyed?_cons, keyed, keyAt_eq hspan hfirst, firstKey?]
    cases hsplit : splitKey? (textFrom indent chunk.first) with
    | none => exact .inl ⟨rfl, rfl⟩
    | some written =>
      cases hkey : (Tree.ofYaml (String.ofList written.1)).toOption with
      | none => simp [hkey]
      | some key =>
        rcases ih hstarts with ⟨hnone, hscan⟩ | ⟨found, scanned, hfound, hscanned, hrest⟩
        · simp [hkey, hnone, hscan]
        · refine .inr ⟨(key, chunk) :: found, (key, span) :: scanned, ?_, ?_,
            .cons ⟨rfl, hspan, hfirst, ?_⟩ hrest⟩
          · simp [hkey, hfound]
          · simp [hkey, hscanned]
          · simp [hsplit]

/-! ### Nodes -/

/-- A byte is replaced behind an indentation. -/
theorem withByte_spaces (indent : Nat) (c : Char) {d : Char} (hd : d.utf8Size = 1)
    (more : List Char) :
    withByte indent c (spaces indent ++ d :: more) = ended (some (spaces indent ++ c :: more)) :=
  withByte_eq.2 ⟨spaces indent, d, more, rfl, size_spaces indent, hd, rfl⟩

section
variable {lines : List Line} {indent : Nat} {span : Span} {chunk : Chunk} {old new : Tree}
  {block : List Line → Scan (List Char)}

theorem valueIsBelow_eq {first : Line} {written rest : List Char}
    (h : splitKey? (textFrom indent first) = some (written, rest)) :
    valueIsBelow indent first = isBelow rest := by
  rw [valueIsBelow, h]
  rfl

/-- **An entry is cut at offsets within its first line**, and its value is on lines that are
there. -/
theorem Scan.entryNode_eq (hat : Span.At lines span chunk)
    (hfirst : lineRole .mapping indent chunk.first = .starts)
    (hsplit : (splitKey? (textFrom indent chunk.first)).isSome)
    (hblock : ∀ below, block below = ended (renderBlock? below old new))
    (fresh : Option (List Char)) :
    entryNode lines indent span (old.same new) block fresh =
      ended (renderNode? .mapping indent chunk old new fresh) := by
  rw [entryNode, renderNode?]
  by_cases hsame : old.same new = true
  · rw [if_pos hsame, if_pos hsame, hat.linesBetween_body, some_bind, pure_eq]
  rw [if_neg hsame, if_neg hsame, keyAt_eq hat hfirst]
  obtain ⟨⟨written, rest⟩, hsplit⟩ := Option.isSome_iff_exists.1 hsplit
  rw [hsplit, some_bind, lookInto?]
  dsimp only
  rw [valueIsBelow_eq hsplit]
  by_cases hbelow : isBelow rest = true
  · rw [if_pos hbelow, if_pos hbelow, hat.linesBetween_nested, some_bind, hblock, attempt_ended,
      some_bind]
    cases renderBlock? chunk.nested old new with
    | none => rfl
    | some text => simp [hat.lineAt_start]
  · simp [hbelow]

/-- **A dash is a byte of its own**, and so is the blank in its place once the item is rendered. -/
theorem Scan.dashed_eq (hfirst : lineRole .sequence indent chunk.first = .starts)
    (hblock : ∀ item, block item = ended (renderBlock? item old new)) :
    dashed indent chunk.body block =
      ended ((renderBlock? (blankDash indent chunk) old new).bind (restoreDash? indent)) := by
  obtain ⟨more, hmore⟩ := exists_dash hfirst
  have hline : lineAt chunk.body 0 = ended (some chunk.first) := lineAt_eq.2 rfl
  have hblanked : withByte indent ' ' chunk.first = ended (some (chunk.first.set indent ' ')) := by
    rw [hmore, set_spaces, withByte_spaces indent ' ' (by decide)]
  have hitem : chunk.body.set 0 (chunk.first.set indent ' ') = blankDash indent chunk := rfl
  rw [dashed, hline, some_bind, hblanked, some_bind, hitem, hblock]
  cases hrendered : renderBlock? (blankDash indent chunk) old new with
  | none => rfl
  | some text =>
    obtain ⟨rest, rfl⟩ := (keepsIndentation new).blankDash hfirst hrendered
    have hbyte : (bytes (spaces indent ++ ' ' :: rest))[indent]? = some ' '.toUInt8 := by
      rw [bytes_append, bytes_cons_of_ascii (by decide)]
      have hlength : (bytes (spaces indent)).length = indent := size_spaces indent
      rw [List.getElem?_append_right hlength.le, hlength, Nat.sub_self, List.getElem?_cons_zero]
    have hchar : (spaces indent ++ ' ' :: rest)[indent]? = some ' ' :=
      getElem?_of_lt_indentation (lt_indentation_blanked indent rest)
    rw [some_bind, if_pos hbyte, withByte_spaces indent '-' (by decide), Option.bind_some,
      restoreDash?, if_pos hchar, set_spaces]

theorem Scan.itemNode_eq (hat : Span.At lines span chunk)
    (hfirst : lineRole .sequence indent chunk.first = .starts)
    (hblock : ∀ item, block item = ended (renderBlock? item old new))
    (fresh : Option (List Char)) :
    itemNode lines indent span (old.same new) block fresh =
      ended (renderNode? .sequence indent chunk old new fresh) := by
  rw [itemNode, renderNode?, hat.linesBetween_body, some_bind]
  by_cases hsame : old.same new = true
  · rw [if_pos hsame, if_pos hsame, pure_eq]
  rw [if_neg hsame, if_neg hsame, dashed_eq hfirst hblock, attempt_ended, some_bind, lookInto?]
  cases (renderBlock? (blankDash indent chunk) old new).bind (restoreDash? indent) <;> rfl

end

/-! ### Blocks -/

/-- What is to be shown of the renderings for a new tree: they end without a fault, with what is
rendered in chunks. -/
def EndsWithoutFault (new : Tree) : Prop :=
  ∀ lines old, Scan.block lines old new = ended (renderBlock? lines old new)

section
variable {lines : List Line} {indent : Nat}

/-- A key is found at a span where it is found at a chunk. -/
theorem find?_keyedAt {scanned : List (Tree × Span)} {keyed : List (Tree × Chunk)} (key : Tree)
    (h : List.Forall₂ (KeyedAt lines indent) scanned keyed) :
    ((scanned.find? fun c => c.1.same key) = none ∧ (keyed.find? fun d => d.1.same key) = none) ∨
      ∃ c d, (scanned.find? fun c => c.1.same key) = some c ∧
        (keyed.find? fun d => d.1.same key) = some d ∧ KeyedAt lines indent c d := by
  induction h with
  | nil => exact .inl ⟨rfl, rfl⟩
  | @cons c d scanned keyed hat h ih =>
    by_cases hsame : c.1.same key = true
    · refine .inr ⟨c, d, ?_, ?_, hat⟩
      · exact List.find?_cons_of_pos hsame
      · exact List.find?_cons_of_pos (hat.key ▸ hsame)
    · rw [List.find?_cons_of_neg (p := fun c : Tree × Span => c.1.same key) hsame,
        List.find?_cons_of_neg (p := fun d : Tree × Chunk => d.1.same key) (hat.key ▸ hsame)]
      exact ih

theorem Scan.entries_eq {before entries : List Entry} {scanned : List (Tree × Span)}
    {keyed : List (Tree × Chunk)} (hkeyed : List.Forall₂ (KeyedAt lines indent) scanned keyed)
    (hvalues : ∀ e ∈ entries, EndsWithoutFault e.2) :
    Scan.entries lines indent before scanned entries =
      ended (renderEntries? indent before keyed entries) := by
  induction entries with
  | nil => rfl
  | cons e entries ih =>
    obtain ⟨key, value⟩ := e
    obtain ⟨hvalue, hvalues⟩ := List.forall_mem_cons.1 hvalues
    rw [Scan.entries]
    rcases find?_keyedAt key hkeyed with ⟨hspan, hchunk⟩ | ⟨c, d, hspan, hchunk, hat⟩
    · rw [hspan, renderEntries?_cons_added (.inl hchunk)]
      simp only [ih hvalues, pure_eq, ended_bind]
    · obtain ⟨k, span⟩ := c
      obtain ⟨k', chunk⟩ := d
      cases hold : Tree.lookupSame? key before with
      | none =>
        rw [hspan, renderEntries?_cons_added (.inr hold)]
        simp only [ih hvalues, pure_eq, ended_bind]
      | some old =>
        rw [hspan, renderEntries?_cons_found hchunk hold]
        simp only [entryNode_eq hat.span hat.starts hat.split (fun below => hvalue below old),
          hat.span.linesBetween_trailer, ih hvalues, pure_eq, ended_bind, Option.bind_some]

theorem Scan.items_eq {olds items : List Tree} {spans : List Span} {chunks : List Chunk}
    (hat : List.Forall₂ (Span.At lines) spans chunks)
    (hstarts : ∀ chunk ∈ chunks, lineRole .sequence indent chunk.first = .starts)
    (hitems : ∀ t ∈ items, EndsWithoutFault t) :
    Scan.items lines indent olds spans items = ended (renderItems? indent olds chunks items) := by
  induction items generalizing olds spans chunks with
  | nil => simp [Scan.items, renderItems?]
  | cons value items ih =>
    obtain ⟨hitem, hitems⟩ := List.forall_mem_cons.1 hitems
    cases olds with
    | nil => rfl
    | cons old olds =>
    cases hat with
    | nil => rfl
    | cons hspan hat =>
    obtain ⟨hfirst, hstarts⟩ := List.forall_mem_cons.1 hstarts
    rw [Scan.items, renderItems?_cons_cons]
    simp only [itemNode_eq hspan hfirst (fun item => hitem item old), hspan.linesBetween_trailer,
      ih hat hstarts hitems, pure_eq, ended_bind, Option.bind_some]

theorem Scan.block_mapping (entries : List Entry)
    (hvalues : ∀ e ∈ entries, EndsWithoutFault e.2) : EndsWithoutFault (.mapping entries) := by
  intro lines old
  rw [Scan.block, renderBlock?]
  by_cases hsame : old.same (.mapping entries) = true
  · rw [if_pos hsame, if_pos hsame, pure_eq]
  rw [if_neg hsame, if_neg hsame]
  dsimp only
  cases hdrop : lines.dropWhile isBlankOrComment with
  | nil =>
    rw [opening_eq_none hdrop]
    cases old <;> rfl
  | cons first more =>
    rw [opening_eq hdrop, some_bind]
    cases old with
    | mapping before =>
      dsimp only
      by_cases hitem : isItem (textFrom (indentation first) first) = true
      · simp [hitem]
      rw [if_neg hitem, splitKey_eq, attempt_ended, some_bind, Bool.eq_false_iff.2 hitem,
        Bool.false_or]
      split_ifs with hnone
      · rfl
      have hlines := takeWhile_append_of_dropWhile hdrop
      have hfirst : lineRole .mapping (indentation first) first = .starts :=
        lineRole_of_dropWhile hdrop (by simp [hitem])
      rcases spans_eq hfirst hlines with ⟨hchunks, hspans⟩ | ⟨chunks, spans, hchunks, hspans, hat,
        hstarts⟩
      · rw [hspans, hchunks]
        rfl
      rw [hspans, hchunks, some_bind]
      rcases keyed_eq hat hstarts with ⟨hnone, hscan⟩ | ⟨keyed, scanned, hfound, hscan, hkeyed⟩
      · rw [hscan]
        simp [hnone]
      · rw [hscan, some_bind, linesBetween_lead hlines, some_bind, entries_eq hkeyed hvalues]
        simp [hfound, ended_bind]
    | _ => rfl

theorem Scan.block_sequence (items : List Tree) (hitems : ∀ t ∈ items, EndsWithoutFault t) :
    EndsWithoutFault (.sequence items) := by
  intro lines old
  rw [Scan.block, renderBlock?]
  by_cases hsame : old.same (.sequence items) = true
  · rw [if_pos hsame, if_pos hsame, pure_eq]
  rw [if_neg hsame, if_neg hsame]
  dsimp only
  cases hdrop : lines.dropWhile isBlankOrComment with
  | nil =>
    rw [opening_eq_none hdrop]
    cases old <;> rfl
  | cons first more =>
    rw [opening_eq hdrop, some_bind]
    cases old with
    | sequence before =>
      dsimp only
      split_ifs with hguard
      · rfl
      have hitem : isItem (textFrom (indentation first) first) = true := by
        by_contra hnot
        simp [hnot] at hguard
      have hlines := takeWhile_append_of_dropWhile hdrop
      have hfirst : lineRole .sequence (indentation first) first = .starts :=
        lineRole_of_dropWhile hdrop (by simp [hitem])
      rcases spans_eq hfirst hlines with ⟨hchunks, hspans⟩ | ⟨chunks, spans, hchunks, hspans, hat,
        hstarts⟩
      · rw [hspans, hchunks]
        rfl
      rw [hspans, hchunks, some_bind, hat.length_eq, linesBetween_lead hlines, some_bind,
        items_eq hat hstarts hitems]
      by_cases hcount : chunks.length = before.length
      · simp [hcount, ended_bind]
      · simp [hcount]
    | _ => rfl

end

/-- **A block is rendered without a fault**, whatever its lines and the two trees are. -/
theorem endsWithoutFault (new : Tree) : EndsWithoutFault new := by
  induction new using Tree.inductionOn with
  | mapping entries ih => exact Scan.block_mapping entries fun e he => (ih e he).2
  | sequence items ih => exact Scan.block_sequence items ih
  | null | bool | int | float | text | tagged =>
    intro lines old
    obtain ⟨found, hfound⟩ := exists_opening_eq lines
    simp only [Scan.block, renderBlock?, hfound]
    split_ifs
    · rfl
    · cases found <;> rfl

/-- **A document is rendered without a fault.** Every offset at which a text is cut lies within it
and between two of its characters, every range of lines is in order and within them, and every byte
that is replaced is a character of its own. -/
theorem layout_ends_without_fault (source : String) (old new : Tree) :
    Scan.layout source old new = ended (renderLayout? source old new) := by
  rw [Scan.layout, renderLayout?, endsWithoutFault new]
  cases renderBlock? (Text.lines source.toList) old new <;> rfl

end OperatorBundle.Layout
