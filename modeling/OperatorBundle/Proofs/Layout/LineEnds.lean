import OperatorBundle.Proofs.Layout.Comments
import OperatorBundle.Proofs.Layout.Rendering
import OperatorBundle.Proofs.Tree.Sameness
import OperatorBundle.Proofs.Yaml.LastLine

/-!
The last line of a rendering. Entries and items written anew end their lines, so a rendering leaves
its last line open only if it ends with a line of its source that is open.

* `endsLines_of_renderBlock?`: a rendering of lines that are ended is ended.
-/

namespace OperatorBundle.Layout

open OperatorBundle.Text

/-! ### Texts that end their last line -/

theorem endsLines_nil : EndsLines [] := by simp [EndsLines]

theorem endsLines_of_getLast? {text : List Char} (h : text.getLast? = some '\n') :
    EndsLines text := by
  rw [EndsLines, h]
  simp

theorem EndsLines.append {text rest : List Char} (h : EndsLines text) (hrest : EndsLines rest) :
    EndsLines (text ++ rest) := by
  by_cases hnil : rest = []
  · rwa [hnil, List.append_nil]
  · rwa [EndsLines, List.getLast?_append_of_ne_nil _ hnil]

theorem endsLines_flatten {lines : List Line} (h : ∀ line ∈ lines, EndsLines line) :
    EndsLines lines.flatten := by
  induction lines with
  | nil => exact endsLines_nil
  | cons line more ih =>
    obtain ⟨hline, hmore⟩ := List.forall_mem_cons.1 h
    exact EndsLines.append hline (ih hmore)

theorem endsLines_onOwnLines {parts : List (List Char)} (h : ∀ part ∈ parts, EndsLines part) :
    EndsLines (onOwnLines parts) := by
  induction parts with
  | nil => exact endsLines_nil
  | cons part more ih =>
    obtain ⟨hpart, hmore⟩ := List.forall_mem_cons.1 h
    rw [onOwnLines_cons]
    by_cases hnil : onOwnLines more = []
    · rwa [hnil, joined_nil_right]
    · rw [EndsLines, getLast?_joined hnil]
      exact ih hmore

/-- A character within a line may change. -/
theorem EndsLines.set {text : List Char} {i : Nat} {c d : Char} (h : EndsLines text)
    (hc : text[i]? = some c) (hcn : c ≠ '\n') (hdn : d ≠ '\n') : EndsLines (text.set i d) := by
  cases hlast : text.getLast? with
  | none =>
    rw [List.getLast?_eq_none_iff.1 hlast]
    exact endsLines_nil
  | some last =>
    obtain rfl := h last hlast
    exact endsLines_of_getLast? ((getLast?_set hc hcn hdn).2 hlast)

/-! ### Lines -/

/-- The lines of a text are ended if the text is. -/
theorem endsLines_of_mem_lines {text : List Char} (h : EndsLines text) :
    ∀ line ∈ lines text, EndsLines line := by
  induction text with
  | nil => simp
  | cons c rest ih =>
    by_cases hnil : rest = []
    · subst hnil
      have hline : lines [c] = [[c]] := by simp [lines]
      rw [hline]
      exact List.forall_mem_singleton.2 h
    have hrest : EndsLines rest := by rwa [EndsLines, List.getLast?_cons_of_ne_nil hnil] at h
    by_cases hc : c = '\n'
    · rw [lines, if_pos hc]
      exact List.forall_mem_cons.2 ⟨endsLines_of_getLast? (by simp [hc]), ih hrest⟩
    · rw [lines, if_neg hc]
      cases hlines : lines rest with
      | nil =>
        have hflat := flatten_lines rest
        rw [hlines] at hflat
        exact absurd hflat.symm hnil
      | cons line more =>
        rw [hlines] at ih
        obtain ⟨hline, hmore⟩ := List.forall_mem_cons.1 (ih hrest)
        have hsome : line ≠ [] := ne_nil_of_mem_lines (hlines ▸ List.mem_cons_self)
        refine List.forall_mem_cons.2 ⟨?_, hmore⟩
        rwa [EndsLines, List.getLast?_cons_of_ne_nil hsome]

theorem lines_of_notMem {cs : List Char} (h : '\n' ∉ cs) :
    lines (cs ++ ['\n']) = [cs ++ ['\n']] := by
  induction cs with
  | nil => simp [lines]
  | cons c rest ih =>
    obtain ⟨hc, hrest⟩ := not_or.1 (List.mem_cons.not.1 h)
    rw [List.cons_append, lines, if_neg (Ne.symm hc), ih hrest]

/-- The last line of a text ends as the text does. -/
theorem getLast?_of_mem_lines {cs : List Char} {line : Line} (h : line ∈ (lines cs).getLast?) :
    line.getLast? = cs.getLast? := by
  obtain ⟨init, hinit⟩ := List.getLast?_eq_some_iff.1 h
  have hline : line ≠ [] := ne_nil_of_mem_lines (hinit ▸ List.mem_append_right _ (by simp))
  have hflat := flatten_lines cs
  rw [hinit, List.flatten_append, List.flatten_singleton] at hflat
  rw [← hflat, List.getLast?_append_of_ne_nil _ hline]

theorem lines_ne_nil {cs : List Char} (h : cs ≠ []) : lines cs ≠ [] := by
  intro hnil
  have hflat := flatten_lines cs
  rw [hnil] at hflat
  exact h hflat.symm

/-- What follows a text starts on a line of its own if and only if the text ends its last one. -/
theorem lines_append_iff {text rest : List Char} (hrest : rest ≠ []) :
    lines (text ++ rest) = lines text ++ lines rest ↔ EndsLines text := by
  by_cases htext : text = []
  · subst htext
    exact iff_of_true rfl endsLines_nil
  · constructor
    · intro h
      -- of the lines of a text only the last one may be open
      obtain ⟨last, hlast⟩ := Option.isSome_iff_exists.1
        (List.getLast?_isSome.2 (lines_ne_nil htext))
      obtain ⟨first, hfirst⟩ := Option.isSome_iff_exists.1
        (List.isSome_head?.2 (lines_ne_nil hrest))
      have hchain := (areLines_lines (text ++ rest)).ended
      rw [h, List.isChain_append] at hchain
      have hended := hchain.2.2 last hlast first hfirst
      rw [getLast?_of_mem_lines hlast] at hended
      exact endsLines_of_getLast? hended
    · intro h
      apply lines_append_of_ended
      have hlast := List.getLast?_eq_some_getLast htext
      rw [hlast, h _ hlast]

/-! ### Nodes -/

/-- What is to be shown of the renderings for a new tree: they are ended if all lines are that they
are made from. -/
def KeepsEnds (new : Tree) : Prop :=
  ∀ lines old out, (∀ line ∈ lines, EndsLines line) → renderBlock? lines old new = some out →
    EndsLines out

section
variable {indent : Nat} {parts : List (List Char)}

theorem endsLines_blankDash {chunk : Chunk} (h : ∀ line ∈ chunk.body, EndsLines line)
    (hfirst : lineRole .sequence indent chunk.first = .starts) :
    ∀ line ∈ blankDash indent chunk, EndsLines line := by
  obtain ⟨hline, hnested⟩ := List.forall_mem_cons.1 h
  exact List.forall_mem_cons.2
    ⟨EndsLines.set hline (getElem?_dash hfirst) (by decide) (by decide), hnested⟩

theorem KeepsEnds.lookInto {kind : BlockKind} {chunk : Chunk} {old new : Tree} {node : List Char}
    (hnew : KeepsEnds new) (hbody : ∀ line ∈ chunk.body, EndsLines line)
    (hfirst : lineRole kind indent chunk.first = .starts)
    (h : lookInto? kind indent chunk old new = some node) : EndsLines node := by
  cases kind with
  | mapping =>
    obtain ⟨hline, hnested⟩ := List.forall_mem_cons.1 hbody
    obtain ⟨-, text, htext, rfl⟩ := lookInto?_mapping_eq_some.1 h
    exact EndsLines.append hline (hnew _ _ _ hnested htext)
  | sequence =>
    obtain ⟨text, htext, hspace, rfl⟩ := lookInto?_sequence_eq_some.1 h
    have hended := hnew _ _ _ (endsLines_blankDash hbody hfirst) htext
    exact EndsLines.set hended hspace (by decide) (by decide)

theorem KeepsEnds.node {kind : BlockKind} {chunk : Chunk} {old new : Tree} {node : List Char}
    {fresh : Option (List Char)} (hnew : KeepsEnds new)
    (hbody : ∀ line ∈ chunk.body, EndsLines line)
    (hfirst : lineRole kind indent chunk.first = .starts)
    (hfresh : ∀ text, fresh = some text → StartsAt indent text)
    (h : renderNode? kind indent chunk old new fresh = some node) : EndsLines node := by
  rcases renderNode?_cases h with ⟨-, rfl⟩ | ⟨-, hlook⟩ | ⟨-, -, hanew⟩
  · exact endsLines_flatten hbody
  · exact hnew.lookInto hbody hfirst hlook
  · exact endsLines_of_getLast? (hfresh node hanew).ended

/-- Whether a chunk starts as one of its kind, and all of its lines are ended. -/
def EndedChunk (kind : BlockKind) (indent : Nat) (chunk : Chunk) : Prop :=
  lineRole kind indent chunk.first = .starts ∧ ∀ line ∈ chunk.lines, EndsLines line

theorem EndedChunk.body {kind : BlockKind} {chunk : Chunk} (h : EndedChunk kind indent chunk) :
    ∀ line ∈ chunk.body, EndsLines line :=
  fun line hline => h.2 line (chunk.body_isInfix.subset hline)

theorem EndedChunk.trailer {kind : BlockKind} {chunk : Chunk} (h : EndedChunk kind indent chunk) :
    EndsLines chunk.trailer.flatten :=
  endsLines_flatten fun line hline => h.2 line (chunk.trailer_isInfix.subset hline)

/-! ### Parts -/

theorem endsLines_of_renderEntries? {before : List Entry} {keyed : List (Tree × Chunk)}
    {entries : List Entry} (hkeyed : ∀ c ∈ keyed, EndedChunk .mapping indent c.2)
    (hentries : ∀ e ∈ entries, KeepsEnds e.2)
    (h : renderEntries? indent before keyed entries = some parts) :
    ∀ part ∈ parts, EndsLines part := by
  induction entries generalizing parts with
  | nil =>
    obtain rfl : [] = parts := by simpa [renderEntries?] using h
    simp
  | cons e more ih =>
    obtain ⟨key, value⟩ := e
    obtain ⟨hvalue, hmore⟩ := List.forall_mem_cons.1 hentries
    have hadded (hfind : keyed.find? (fun c => c.1.same key) = none ∨
        Tree.lookupSame? key before = none) : ∀ part ∈ parts, EndsLines part := by
      obtain ⟨node, rest, hnode, hrest, rfl⟩ := renderEntries?_of_added hfind h
      have hended := endsLines_of_getLast? (startsAt_freshEntryText hnode).ended
      exact List.forall_mem_cons.2 ⟨hended, ih hmore hrest⟩
    cases hfind : keyed.find? fun c => c.1.same key with
    | none => exact hadded (.inl hfind)
    | some c =>
      cases hold : Tree.lookupSame? key before with
      | none => exact hadded (.inr hold)
      | some old =>
        obtain ⟨node, rest, hnode, hrest, rfl⟩ := renderEntries?_of_found hfind hold h
        have hchunk := hkeyed c (List.mem_of_find?_eq_some hfind)
        have hended := hvalue.node hchunk.body hchunk.1 (fun _ => startsAt_freshEntryText) hnode
        exact List.forall_mem_cons.2
          ⟨hended, List.forall_mem_cons.2 ⟨hchunk.trailer, ih hmore hrest⟩⟩

theorem endsLines_of_renderItems? {olds items : List Tree} {chunks : List Chunk}
    (hchunks : ∀ chunk ∈ chunks, EndedChunk .sequence indent chunk)
    (hitems : ∀ item ∈ items, KeepsEnds item)
    (h : renderItems? indent olds chunks items = some parts) : ∀ part ∈ parts, EndsLines part := by
  induction items generalizing olds chunks parts with
  | nil =>
    obtain rfl : [] = parts := by simpa [renderItems?] using h
    simp
  | cons item more ih =>
    cases olds with
    | nil =>
      obtain rfl : [] = parts := by simpa [renderItems?] using h
      simp
    | cons old olds =>
    cases chunks with
    | nil =>
      obtain rfl : [] = parts := by simpa [renderItems?] using h
      simp
    | cons chunk chunks =>
      obtain ⟨hchunk, hothers⟩ := List.forall_mem_cons.1 hchunks
      obtain ⟨hitem, hmore⟩ := List.forall_mem_cons.1 hitems
      obtain ⟨node, rest, hnode, hrest, rfl⟩ := renderItems?_cons h
      have hended := hitem.node hchunk.body hchunk.1 (fun _ => startsAt_freshItemText) hnode
      exact List.forall_mem_cons.2
        ⟨hended, List.forall_mem_cons.2 ⟨hchunk.trailer, ih hothers hmore hrest⟩⟩

end

/-! ### Blocks -/

theorem endedChunk_of_cut? {kind : BlockKind} {lines : List Line} {indent : Nat}
    {chunks : List Chunk} (h : ∀ line ∈ lines, EndsLines line)
    (hcut : cut? kind lines = some (indent, chunks)) :
    ∀ chunk ∈ chunks, EndedChunk kind indent chunk := by
  intro chunk hchunk
  refine ⟨starts_of_chunksAfter? (cut?_eq_some hcut) chunk hchunk, fun line hline => h line ?_⟩
  rw [← lines_of_cut? hcut]
  exact List.mem_append_right _ ((Chunk.lines_isInfix hchunk).subset hline)

theorem endsLines_lead {lines : List Line} (h : ∀ line ∈ lines, EndsLines line) :
    EndsLines (lines.takeWhile isBlankOrComment).flatten :=
  endsLines_flatten fun line hline => h line ((List.takeWhile_sublist _).subset hline)

theorem keepsEnds (new : Tree) : KeepsEnds new := by
  induction new using Tree.inductionOn with
  | mapping entries ih =>
    intro lines old out hlines h
    cases rendered h with
    | unchanged => exact endsLines_flatten hlines
    | mapping _ _ hcut hkeyed hparts =>
      have hchunks := endedChunk_of_cut? hlines hcut
      obtain ⟨rfl, -⟩ := keyed?_eq_some hkeyed
      refine endsLines_onOwnLines (List.forall_mem_cons.2 ⟨endsLines_lead hlines, ?_⟩)
      apply endsLines_of_renderEntries? _ (fun e he => (ih e he).2) hparts
      exact fun c hc => hchunks c.2 (List.mem_map_of_mem hc)
  | sequence items ih =>
    intro lines old out hlines h
    cases rendered h with
    | unchanged => exact endsLines_flatten hlines
    | sequence _ _ _ hcut hparts =>
      refine endsLines_onOwnLines (List.forall_mem_cons.2 ⟨endsLines_lead hlines, ?_⟩)
      exact endsLines_of_renderItems? (endedChunk_of_cut? hlines hcut) ih hparts
  | null | bool | int | float | text | tagged =>
    intro lines old out hlines h
    cases rendered h with
    | unchanged => exact endsLines_flatten hlines

/-- **A rendering of a text that ends its last line does so too.** -/
theorem endsLines_of_renderLayout? {source text : String} {old new : Tree}
    (hsource : EndsLines source.toList) (h : renderLayout? source old new = some text) :
    EndsLines text.toList := by
  obtain ⟨out, hout, rfl⟩ := Option.map_eq_some_iff.1 h
  rw [String.toList_ofList]
  exact keepsEnds new _ old out (endsLines_of_mem_lines hsource) hout

end OperatorBundle.Layout
