import OperatorBundle.Proofs.Layout.Rendering

/-!
Collections with one change. All lines but those of the changed entry or item are kept, each as it
stands.
-/

namespace OperatorBundle.Layout

open OperatorBundle.Text

/-- Lines that are scanned to have the keys of a mapping's entries, in order. -/
def ScannedAs (lines : List Line) (entries : List Entry) : Prop :=
  ∃ keys, scannedKeys? lines = some keys ∧
    List.Forall₂ (fun key (e : Entry) => key.same e.1) keys entries

theorem ScannedAs.forall₂ {lines : List Line} {entries : List Entry} {indent : Nat}
    {chunks : List Chunk} {keyed : List (Tree × Chunk)} (h : ScannedAs lines entries)
    (hcut : cut? .mapping lines = some (indent, chunks))
    (hkeyed : keyed? indent chunks = some keyed) :
    List.Forall₂ (fun (c : Tree × Chunk) (e : Entry) => c.1.same e.1) keyed entries := by
  obtain ⟨keys, hkeys, hsame⟩ := h
  obtain rfl : keyed.map (·.1) = keys := by simpa [scannedKeys?, hcut, hkeyed] using hkeys
  rwa [List.forall₂_map_left_iff] at hsame

theorem renderNode?_same {kind : BlockKind} {indent : Nat} {chunk : Chunk} {old new : Tree}
    {fresh : Option (List Char)} {node : List Char} (hsame : old.same new)
    (h : renderNode? kind indent chunk old new fresh = some node) : node = chunk.body.flatten := by
  rw [renderNode?, if_pos hsame] at h
  exact (Option.some.inj h).symm

/-- A kept chunk, its node and its trailer being parts of their own, is its lines. -/
theorem onOwnLines_kept {chunk : Chunk} (h : AreLines chunk.lines) (parts : List (List Char)) :
    onOwnLines (chunk.body.flatten :: chunk.trailer.flatten :: parts) =
      onOwnLines (chunk.lines ++ parts) := by
  have hbody : AreLines chunk.body := h.of_isInfix chunk.body_isInfix
  have htrailer : AreLines chunk.trailer := h.of_isInfix chunk.trailer_isInfix
  rw [onOwnLines_cons, onOwnLines_cons, ← hbody.flatten_eq_onOwnLines,
    ← htrailer.flatten_eq_onOwnLines, ← onOwnLines_append, ← onOwnLines_append, Chunk.lines,
    List.append_assoc]

/-- A list of parts may be changed at its end. -/
theorem onOwnLines_append_congr {parts more others : List (List Char)}
    (h : onOwnLines more = onOwnLines others) :
    onOwnLines (parts ++ more) = onOwnLines (parts ++ others) := by
  rw [onOwnLines_append, onOwnLines_append, h]

/-- The leading lines of a collection, as one part, and then its other parts. -/
theorem onOwnLines_lead {lines : List Line} (hlines : AreLines lines)
    {parts others : List (List Char)} (h : onOwnLines parts = onOwnLines others) :
    onOwnLines ((lines.takeWhile isBlankOrComment).flatten :: parts) =
      onOwnLines (lines.takeWhile isBlankOrComment ++ others) := by
  have hlead : AreLines (lines.takeWhile isBlankOrComment) :=
    hlines.of_isInfix (List.takeWhile_prefix _).isInfix
  rw [onOwnLines_cons, ← hlead.flatten_eq_onOwnLines, ← onOwnLines_append]
  exact onOwnLines_append_congr h

/-- A node and its trailer, as one part, and then other parts. -/
theorem onOwnLines_node {trailer : List Line} (htrailer : AreLines trailer) (node : List Char)
    {parts others : List (List Char)} (h : onOwnLines parts = onOwnLines others) :
    onOwnLines (node :: trailer.flatten :: parts) =
      onOwnLines (node :: (trailer ++ others)) := by
  rw [onOwnLines_cons, onOwnLines_cons, h, onOwnLines_cons, ← htrailer.flatten_eq_onOwnLines,
    ← onOwnLines_append]

/-! ### Entries -/

section Entries

variable {indent : Nat} {before : List Entry} {keyed : List (Tree × Chunk)}

/-- What is known of a mapping whose lines are scanned to have its keys. -/
structure Scanned (before : List Entry) (keyed : List (Tree × Chunk)) : Prop where
  unique : (Tree.mapping before).uniqueKeys
  keysUnique : ∀ c ∈ keyed, c.1.uniqueKeys
  forall₂ : List.Forall₂ (fun (c : Tree × Chunk) (e : Entry) => c.1.same e.1) keyed before
  areLines : ∀ c ∈ keyed, AreLines c.2.lines

namespace Scanned

theorem find? (h : Scanned before keyed) {c : Tree × Chunk} {e : Entry}
    (hmem : (c, e) ∈ keyed.zip before) :
    keyed.find? (fun c => c.1.same e.1) = some c ∧ Tree.lookupSame? e.1 before = some e.2 := by
  obtain ⟨hdiffer, hunique⟩ := Tree.uniqueKeys_mapping.1 h.unique
  have he : e ∈ before := (List.of_mem_zip hmem).2
  have hkeys : ∀ e ∈ before, e.1.uniqueKeys := fun e he => (hunique e he).1
  -- no other chunk has this key, as no other entry has it
  have hself := Tree.same_self (hkeys e he)
  exact ⟨find?_scanned h.forall₂ hdiffer hkeys h.keysUnique (hkeys e he) hmem hself,
    Tree.lookupSame?_same hdiffer hkeys (hkeys e he) he hself⟩

/-- Entries that did not change keep their lines. -/
theorem renderEntries?_kept (h : Scanned before keyed) {scanned : List (Tree × Chunk)}
    {kept more : List Entry} {parts : List (List Char)} (hlength : scanned.length = kept.length)
    (hmem : ∀ p ∈ scanned.zip kept, p ∈ keyed.zip before)
    (hparts : renderEntries? indent before keyed (kept ++ more) = some parts) :
    ∃ rest, renderEntries? indent before keyed more = some rest ∧
      onOwnLines parts = onOwnLines (scanned.flatMap (·.2.lines) ++ rest) := by
  induction kept generalizing scanned parts with
  | nil =>
    obtain rfl := List.length_eq_zero_iff.1 hlength
    exact ⟨parts, hparts, rfl⟩
  | cons e kept ih =>
    obtain ⟨c, scanned, rfl⟩ := List.exists_cons_of_length_eq_add_one hlength
    rw [List.zip_cons_cons, List.forall_mem_cons] at hmem
    obtain ⟨hfirst, hmem⟩ := hmem
    obtain ⟨hfind, hlookup⟩ := h.find? hfirst
    obtain ⟨hc, he⟩ := List.of_mem_zip hfirst
    obtain ⟨node, others, hnode, hothers, rfl⟩ := renderEntries?_of_found hfind hlookup hparts
    obtain ⟨rest, hrest, heq⟩ := ih (by simpa using hlength) hmem hothers
    refine ⟨rest, hrest, ?_⟩
    have hvalue : e.2.uniqueKeys := ((Tree.uniqueKeys_mapping.1 h.unique).2 e he).2
    rw [renderNode?_same (Tree.same_self hvalue) hnode, onOwnLines_kept (h.areLines c hc),
      List.flatMap_cons, List.append_assoc]
    exact onOwnLines_append_congr heq

theorem renderEntries?_kept_last (h : Scanned before keyed) {scanned : List (Tree × Chunk)}
    {kept : List Entry} {parts : List (List Char)} (hlength : scanned.length = kept.length)
    (hmem : ∀ p ∈ scanned.zip kept, p ∈ keyed.zip before)
    (hparts : renderEntries? indent before keyed kept = some parts) :
    onOwnLines parts = onOwnLines (scanned.flatMap (·.2.lines)) := by
  rw [← List.append_nil kept] at hparts
  obtain ⟨rest, hrest, heq⟩ := h.renderEntries?_kept hlength hmem hparts
  obtain rfl : [] = rest := by simpa [renderEntries?] using hrest
  rw [heq, List.append_nil]

/-- The chunks and keys of a mapping around one entry. -/
theorem split (h : Scanned before keyed) {pre post : List Chunk} {chunk : Chunk}
    {bpre bpost : List Entry} {e : Entry} (hchunks : keyed.map (·.2) = pre ++ chunk :: post)
    (hbefore : before = bpre ++ e :: bpost) (hlength : pre.length = bpre.length) :
    ∃ kpre k kpost, keyed = kpre ++ (k, chunk) :: kpost ∧ kpre.map (·.2) = pre ∧
      kpost.map (·.2) = post ∧ kpre.length = bpre.length ∧ kpost.length = bpost.length ∧
      keyed.zip before = kpre.zip bpre ++ ((k, chunk), e) :: kpost.zip bpost := by
  obtain ⟨kpre, krest, rfl, rfl, hrest⟩ := List.map_eq_append_iff.1 hchunks
  obtain ⟨⟨k, found⟩, kpost, rfl, rfl, rfl⟩ := List.map_eq_cons_iff.1 hrest
  have hpre : kpre.length = bpre.length := by simpa using hlength
  have hlengths := h.forall₂.length_eq
  refine ⟨kpre, k, kpost, rfl, rfl, rfl, hpre, ?_, ?_⟩
  · rw [hbefore] at hlengths
    simp only [List.length_append, List.length_cons] at hlengths
    omega
  · rw [hbefore, List.zip_append hpre, List.zip_cons_cons]

end Scanned

end Entries

section Mapping

variable {lines : List Line} {indent : Nat} {pre post : List Chunk} {chunk : Chunk}
  {bpre bpost : List Entry} {out : List Char}

theorem Scanned.of_cut? {before : List Entry} {keyed : List (Tree × Chunk)} {chunks : List Chunk}
    (hlines : AreLines lines) (hbefore : (Tree.mapping before).uniqueKeys)
    (hscanned : ScannedAs lines before) (hcut : cut? .mapping lines = some (indent, chunks))
    (hkeyed : keyed? indent chunks = some keyed) : Scanned before keyed := by
  obtain ⟨rfl, hunique⟩ := keyed?_eq_some hkeyed
  exact ⟨hbefore, hunique, hscanned.forall₂ hcut hkeyed,
    fun c hc => hlines.of_cut? hcut _ (List.mem_map_of_mem hc)⟩

/-- A mapping that changed at one entry or behind it. The entries before it keep their lines, and so
do those behind it where they are still there; the text follows from that of what is left. -/
theorem exists_of_renderBlock?_kept {e : Entry} {after : List Entry} (hlines : AreLines lines)
    (hbefore : (Tree.mapping (bpre ++ e :: bpost)).uniqueKeys)
    (hcut : cut? .mapping lines = some (indent, pre ++ chunk :: post))
    (hscanned : ScannedAs lines (bpre ++ e :: bpost)) (hlength : pre.length = bpre.length)
    (hchanged : (Tree.mapping (bpre ++ e :: bpost)).same (.mapping (bpre ++ after)) = false)
    (h : renderBlock? lines (.mapping (bpre ++ e :: bpost)) (.mapping (bpre ++ after)) =
      some out) :
    bpre ++ after ≠ [] ∧ post.length = bpost.length ∧
    ∃ keyed key rest, Scanned (bpre ++ e :: bpost) keyed ∧
      ((key, chunk), e) ∈ keyed.zip (bpre ++ e :: bpost) ∧
      renderEntries? indent (bpre ++ e :: bpost) keyed after = some rest ∧
      (∀ parts, renderEntries? indent (bpre ++ e :: bpost) keyed bpost = some parts →
        onOwnLines parts = onOwnLines (post.flatMap Chunk.lines)) ∧
      ∀ text, onOwnLines rest = onOwnLines text →
        onOwnLines (lines.takeWhile isBlankOrComment ++ (pre.flatMap Chunk.lines ++ text)) =
          out := by
  cases rendered h with
  | unchanged hsame => rw [hsame] at hchanged; cases hchanged
  | @mapping _ _ _ chunks keyed parts _ hentries hcut' hkeyed hparts =>
    obtain ⟨rfl, rfl⟩ := Prod.mk.inj (Option.some.inj (hcut.symm.trans hcut'))
    have hs := Scanned.of_cut? hlines hbefore hscanned hcut hkeyed
    obtain ⟨kpre, key, kpost, rfl, rfl, rfl, hpre, hpost, hzip⟩ :=
      hs.split (keyed?_eq_some hkeyed).1 rfl hlength
    obtain ⟨rest, hrest, heq⟩ := hs.renderEntries?_kept hpre
      (fun p hp => by rw [hzip]; exact List.mem_append_left _ hp) hparts
    refine ⟨hentries, by simpa using hpost, _, key, rest, hs, by rw [hzip]; simp, hrest,
      fun parts hparts => ?_, fun text htext => ?_⟩
    · rw [List.flatMap_map]
      exact hs.renderEntries?_kept_last hpost
        (fun p hp => by rw [hzip]; exact List.mem_append_right _ (List.mem_cons_of_mem _ hp)) hparts
    · refine (onOwnLines_lead hlines ?_).symm
      rw [heq, List.flatMap_map]
      exact onOwnLines_append_congr htext

/-- A mapping of which one entry was removed. -/
theorem renderBlock?_of_removed {e : Entry} (hlines : AreLines lines)
    (hbefore : (Tree.mapping (bpre ++ e :: bpost)).uniqueKeys)
    (hcut : cut? .mapping lines = some (indent, pre ++ chunk :: post))
    (hscanned : ScannedAs lines (bpre ++ e :: bpost)) (hlength : pre.length = bpre.length)
    (h : renderBlock? lines (.mapping (bpre ++ e :: bpost)) (.mapping (bpre ++ bpost)) = some out) :
    pre ++ post ≠ [] ∧
      onOwnLines (lines.takeWhile isBlankOrComment ++ (pre ++ post).flatMap Chunk.lines) = out := by
  obtain ⟨hentries, hpost, keyed, key, rest, -, -, hrest, hkept, hout⟩ :=
    exists_of_renderBlock?_kept hlines hbefore hcut hscanned hlength (by simp [Tree.same]) h
  constructor
  · rw [← List.length_pos_iff] at hentries ⊢
    simpa [hlength, hpost] using hentries
  · rw [List.flatMap_append]
    exact hout _ (hkept rest hrest)

/-- A mapping of which one entry has another value. -/
theorem renderBlock?_of_changed_entry {key old new : Tree} (hlines : AreLines lines)
    (hbefore : (Tree.mapping (bpre ++ (key, old) :: bpost)).uniqueKeys)
    (hcut : cut? .mapping lines = some (indent, pre ++ chunk :: post))
    (hscanned : ScannedAs lines (bpre ++ (key, old) :: bpost)) (hlength : pre.length = bpre.length)
    (hchanged : (Tree.mapping (bpre ++ (key, old) :: bpost)).same
      (.mapping (bpre ++ (key, new) :: bpost)) = false)
    (h : renderBlock? lines (.mapping (bpre ++ (key, old) :: bpost))
      (.mapping (bpre ++ (key, new) :: bpost)) = some out) :
    ∃ node,
      renderNode? .mapping indent chunk old new (freshEntryText? indent key new) = some node ∧
      onOwnLines (lines.takeWhile isBlankOrComment ++ (pre.flatMap Chunk.lines ++
        node :: (chunk.trailer ++ post.flatMap Chunk.lines))) = out := by
  obtain ⟨-, -, keyed, k, rest, hs, hmem, hrest, hkept, hout⟩ :=
    exists_of_renderBlock?_kept hlines hbefore hcut hscanned hlength hchanged h
  obtain ⟨hfind, hlookup⟩ := hs.find? hmem
  obtain ⟨node, others, hnode, hothers, rfl⟩ := renderEntries?_of_found hfind hlookup hrest
  have htrailer : AreLines chunk.trailer :=
    (hs.areLines _ (List.of_mem_zip hmem).1).of_isInfix chunk.trailer_isInfix
  exact ⟨node, hnode, hout _ (onOwnLines_node htrailer node (hkept others hothers))⟩

end Mapping

/-! ### Items -/

/-- Items that did not change keep their lines. -/
theorem renderItems?_kept {indent : Nat} {scanned chunks : List Chunk} {kept olds items : List Tree}
    {parts : List (List Char)} (hkept : ∀ t ∈ kept, t.uniqueKeys)
    (hscanned : ∀ c ∈ scanned, AreLines c.lines) (hlength : scanned.length = kept.length)
    (h : renderItems? indent (kept ++ olds) (scanned ++ chunks) (kept ++ items) = some parts) :
    ∃ rest, renderItems? indent olds chunks items = some rest ∧
      onOwnLines parts = onOwnLines (scanned.flatMap Chunk.lines ++ rest) := by
  induction kept generalizing scanned parts with
  | nil =>
    obtain rfl := List.length_eq_zero_iff.1 hlength
    exact ⟨parts, h, rfl⟩
  | cons t kept ih =>
    obtain ⟨c, scanned, rfl⟩ := List.exists_cons_of_length_eq_add_one hlength
    obtain ⟨ht, hkept⟩ := List.forall_mem_cons.1 hkept
    obtain ⟨hc, hscanned⟩ := List.forall_mem_cons.1 hscanned
    obtain ⟨node, others, hnode, hothers, rfl⟩ := renderItems?_cons h
    obtain ⟨rest, hrest, heq⟩ := ih hkept hscanned (by simpa using hlength) hothers
    refine ⟨rest, hrest, ?_⟩
    rw [renderNode?_same (Tree.same_self ht) hnode, onOwnLines_kept hc, List.flatMap_cons,
      List.append_assoc]
    exact onOwnLines_append_congr heq

/-- A sequence of which one item changed. -/
theorem renderBlock?_of_changed_item {lines : List Line} {indent : Nat} {pre post : List Chunk}
    {chunk : Chunk} {opre opost : List Tree} {old new : Tree} {out : List Char}
    (hlines : AreLines lines) (hunique : ∀ t ∈ opre ++ opost, t.uniqueKeys)
    (hcut : cut? .sequence lines = some (indent, pre ++ chunk :: post))
    (hlength : pre.length = opre.length)
    (hchanged : (Tree.sequence (opre ++ old :: opost)).same
      (.sequence (opre ++ new :: opost)) = false)
    (h : renderBlock? lines (.sequence (opre ++ old :: opost))
      (.sequence (opre ++ new :: opost)) = some out) :
    ∃ node, renderNode? .sequence indent chunk old new (freshItemText? indent new) = some node ∧
      onOwnLines (lines.takeWhile isBlankOrComment ++ (pre.flatMap Chunk.lines ++
        node :: (chunk.trailer ++ post.flatMap Chunk.lines))) = out := by
  cases rendered h with
  | unchanged hsame => rw [hsame] at hchanged; cases hchanged
  | @sequence _ _ _ chunks parts _ _ hcount hcut' hparts =>
    obtain ⟨rfl, rfl⟩ := Prod.mk.inj (Option.some.inj (hcut.symm.trans hcut'))
    rw [List.forall_mem_append] at hunique
    obtain ⟨hpre, hpost⟩ := hunique
    have hchunks := hlines.of_cut? hcut
    rw [List.forall_mem_append, List.forall_mem_cons] at hchunks
    obtain ⟨hcpre, hchunk, hcpost⟩ := hchunks
    have hpostLength : post.length = opost.length := by
      simp only [List.length_append, List.length_cons] at hcount
      omega
    obtain ⟨rest, hrest, heq⟩ := renderItems?_kept hpre hcpre hlength hparts
    obtain ⟨node, others, hnode, hothers, rfl⟩ := renderItems?_cons hrest
    rw [← List.append_nil opost, ← List.append_nil post] at hothers
    obtain ⟨last, hlast, heq'⟩ := renderItems?_kept hpost hcpost hpostLength hothers
    obtain rfl : [] = last := by simpa [renderItems?] using hlast
    rw [List.append_nil] at heq'
    have htrailer : AreLines chunk.trailer := hchunk.of_isInfix chunk.trailer_isInfix
    refine ⟨node, hnode, (onOwnLines_lead hlines ?_).symm⟩
    rw [heq]
    exact onOwnLines_append_congr (onOwnLines_node htrailer node heq')

end OperatorBundle.Layout
