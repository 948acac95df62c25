import OperatorBundle.Proofs.Layout.Access
import OperatorBundle.Proofs.Layout.Chunks

/-!
Entries and items by the numbers of their lines. The scan notes where each of them starts, and
counts back from where the next one starts over the lines that trail it. The numbers are those of
the chunks that the lines are cut into, so each range of them is in order and within the lines.

* `Scan.textAt_eq`: a line is cut at its indentation.
* `Scan.starts_eq`: where entries and items start.
* `Scan.spans_eq`: the scan ends without a fault; `Span.At` says what is found at a span.
-/

namespace OperatorBundle.Layout

open OperatorBundle.Text Scan

/-! ### Indentations -/

/-- The number of spaces that a line starts with, as the number of bytes it loses with them. -/
def Scan.indentOf (line : Line) : Scan Nat :=
  difference (size line) (size (line.dropWhile (· = ' ')))

/-- A line from an offset on, without its end. -/
def Scan.textAt (offset : Nat) (line : Line) : Scan (List Char) := textAfter offset (content line)

/-- Whether a line may trail a collection at an indentation. -/
def Scan.isTrailerAt (indent : Nat) (line : Line) : Scan Bool :=
  match trimLeft (content line) with
  | [] => pure true
  | c :: _ =>
    if c = '#' then do
      let width ← indentOf (content line)
      pure (width ≤ indent)
    else pure false

theorem Scan.indentOf_eq (line : Line) : indentOf line = ended (some (indentation line)) := by
  have hsize : size line = indentation line + size (line.dropWhile (· = ' ')) := by
    have hspaces : line.takeWhile (· = ' ') = spaces (indentation line) :=
      List.eq_replicate_of_mem fun c hc => by simpa using List.mem_takeWhile_imp hc
    rw [← size_spaces (indentation line), ← size_append, ← hspaces, List.takeWhile_append_dropWhile]
  rw [indentOf, hsize, difference_of_le (by omega), Nat.add_sub_cancel]

/-- A line with more than blanks on it has its indentation before its end. -/
theorem content_eq_append {line : Line} (h : isBlankOrComment line = false) :
    content line = spaces (indentation line) ++ textFrom (indentation line) line := by
  have htake : (content line).take (indentation line) <+: spaces (indentation line) := by
    obtain ⟨ending, hending⟩ := content_prefix line
    exact ⟨_, by rw [← List.take_append, hending, take_indentation]⟩
  have hlength : indentation line ≤ (content line).length := by
    by_contra hlt
    -- the line would be of spaces only up to its end
    rw [List.take_of_length_le (by omega)] at htake
    have hblank : trimLeft (content line) = [] := by
      refine List.dropWhile_eq_nil_iff.2 ?_
      intro c hc
      rw [List.eq_of_mem_replicate (htake.subset hc)]
      rfl
    rw [isBlankOrComment, hblank] at h
    cases h
  have heq : (content line).take (indentation line) = spaces (indentation line) :=
    htake.eq_of_length (by simp [spaces, hlength])
  rw [← heq]
  exact (List.take_append_drop _ _).symm

/-- **A line is cut at its indentation without a fault.** -/
theorem Scan.textAt_eq {line : Line} (h : isBlankOrComment line = false) :
    textAt (indentation line) line = ended (some (textFrom (indentation line) line)) :=
  textAfter_eq.2 ⟨spaces (indentation line), content_eq_append h, size_spaces _⟩

theorem Scan.isTrailerAt_eq (indent : Nat) (line : Line) :
    isTrailerAt indent line = ended (some (isTrailer indent line)) := by
  unfold isTrailerAt isTrailer
  cases trimLeft (content line) with
  | nil => rfl
  | cons c rest =>
    by_cases hc : c = '#'
    · simp [hc, indentOf_eq]
    · simp [hc]

/-! ### First lines -/

/-- Whether a text starts an entry or item. -/
def isStart (kind : BlockKind) (text : List Char) : Bool :=
  match kind with
  | .mapping => !isItem text
  | .sequence => isItem text

/-- The numbers of the lines that start an entry or item, from a number on. -/
def Scan.starts (kind : BlockKind) (indent : Nat) : Nat → List Line → Scan (List Nat)
  | _, [] => pure []
  | number, line :: more =>
    if isBlankOrComment line then starts kind indent (number + 1) more
    else do
      let width ← indentOf line
      if width < indent then failure
      else if width = indent then do
        let text ← textAt indent line
        if isStart kind text then do
          let others ← starts kind indent (number + 1) more
          pure (number :: others)
        else if !isItem text then failure
        else starts kind indent (number + 1) more
      else starts kind indent (number + 1) more

/-- The numbers of the first lines of chunks, from a number on. -/
def startNumbers (number : Nat) : List Chunk → List Nat
  | [] => []
  | chunk :: chunks => number :: startNumbers (number + chunk.lines.length) chunks

theorem Scan.starts_cons (kind : BlockKind) (indent number : Nat) (line : Line)
    (more : List Line) :
    starts kind indent number (line :: more) =
      match lineRole kind indent line with
      | .starts => do
        let others ← starts kind indent (number + 1) more
        pure (number :: others)
      | .continues => starts kind indent (number + 1) more
      | .foreign => failure := by
  rw [starts, lineRole.eq_def]
  by_cases hblank : isBlankOrComment line = true
  · rw [if_pos hblank, if_pos hblank]
  rw [if_neg hblank, if_neg hblank, indentOf_eq, some_bind]
  by_cases hleft : indentation line < indent
  · rw [if_pos hleft, if_pos hleft]
  rw [if_neg hleft, if_neg hleft]
  by_cases hright : indent < indentation line
  · rw [if_neg (by omega), if_pos hright]
  obtain rfl : indent = indentation line := by omega
  rw [if_pos rfl, if_neg hright, textAt_eq (Bool.eq_false_iff.2 hblank), some_bind]
  cases kind <;> cases hitem : isItem (textFrom (indentation line) line) <;> simp [isStart, hitem]

/-- **The scan notes where the chunks start**, or finds nothing where there are none. -/
theorem Scan.starts_eq (kind : BlockKind) (indent number : Nat) (lines : List Line) :
    starts kind indent number lines =
      ended ((chunksAfter? kind indent lines).map fun (loose, chunks) =>
        startNumbers (number + loose.length) chunks) := by
  induction lines generalizing number with
  | nil => rfl
  | cons line more ih =>
    rw [starts_cons, chunksAfter?]
    have hrest := ih (number + 1)
    cases hmore : chunksAfter? kind indent more with
    | none =>
      rw [hmore, Option.map_none] at hrest
      cases lineRole kind indent line <;> simp [hrest]
    | some found =>
      obtain ⟨loose, chunks⟩ := found
      have hnumber : number + 1 + loose.length = number + (loose.length + 1) := by omega
      simp only [hmore, Option.map_some, hnumber] at hrest
      cases lineRole kind indent line <;> simp [hrest, startNumbers]

/-! ### Last lines -/

/-- Where the lines of an entry or item end, before those that trail it: counted back from where
the next one starts. -/
def Scan.bodyEnd (lines : List Line) (indent start : Nat) : Nat → Scan Nat
  | 0 => pure 0
  | last + 1 =>
    if start < last then do
      let line ← lineAt lines last
      let trails ← isTrailerAt indent line
      if trails then bodyEnd lines indent start last else pure (last + 1)
    else pure (last + 1)

theorem Chunk.body_ofLines_concat (indent : Nat) (first : Line) (rest : List Line) (line : Line) :
    (ofLines indent first (rest ++ [line])).body =
      if isTrailer indent line then (ofLines indent first rest).body
      else first :: (rest ++ [line]) := by
  unfold ofLines body
  by_cases htrailer : isTrailer indent line = true
  · have hle : (rest.reverse.takeWhile (isTrailer indent)).length ≤ rest.length := by
      simpa using (List.takeWhile_prefix (isTrailer indent) (l := rest.reverse)).length_le
    simp only [List.reverse_append, List.reverse_singleton, List.singleton_append,
      List.takeWhile_cons_of_pos htrailer, List.length_append, List.length_cons, List.length_nil,
      Nat.add_sub_add_right, if_pos htrailer, Nat.zero_add]
    rw [List.take_append_of_le_length (by omega)]
  · simp [htrailer, List.take_of_length_le]

/-- **The scan counts back to the end of the chunk's own lines.** -/
theorem Scan.bodyEnd_eq (indent : Nat) (before : List Line) (first : Line)
    (rest after : List Line) :
    bodyEnd (before ++ first :: (rest ++ after)) indent before.length
        (before.length + rest.length + 1) =
      ended (some (before.length + (Chunk.ofLines indent first rest).body.length)) := by
  induction rest using List.reverseRecOn generalizing after with
  | nil => simp [bodyEnd, Chunk.ofLines, Chunk.body]
  | append_singleton rest line ih =>
    have hline : lineAt (before ++ first :: (rest ++ [line] ++ after))
        (before.length + (rest ++ [line]).length) = ended (some line) := by
      rw [lineAt_eq, List.getElem?_append_right (by omega)]
      simp
    have hrest := ih (line :: after)
    rw [bodyEnd, if_pos (by simp), hline, some_bind, isTrailerAt_eq, some_bind,
      Chunk.body_ofLines_concat]
    by_cases htrailer : isTrailer indent line = true
    · rw [if_pos htrailer, if_pos htrailer, ← hrest]
      simp [Nat.add_assoc]
    · simp [htrailer, Nat.add_assoc]

/-! ### Spans -/

/-- An entry or item by the numbers of its lines: where it starts, where its own lines end, and
where those that trail it do. -/
structure Span where
  start : Nat
  bodyEnd : Nat
  stop : Nat

/-- The spans that start at some lines. -/
def Scan.spansFrom (lines : List Line) (indent : Nat) : List Nat → Scan (List Span)
  | [] => pure []
  | start :: more => do
    let stop := more.head?.getD lines.length
    let bodyEnd ← bodyEnd lines indent start stop
    let others ← spansFrom lines indent more
    pure (⟨start, bodyEnd, stop⟩ :: others)

/-- The spans of a collection, which starts at a line. -/
def Scan.spans (kind : BlockKind) (lines : List Line) (first indent : Nat) : Scan (List Span) := do
  let starts ← starts kind indent first (lines.drop first)
  spansFrom lines indent starts

/-- The lines of a span are those of a chunk. -/
structure Span.At (lines : List Line) (span : Span) (chunk : Chunk) : Prop where
  exists_append : ∃ before after, lines = before ++ chunk.lines ++ after ∧
    before.length = span.start
  bodyEnd_eq : span.bodyEnd = span.start + chunk.body.length
  stop_eq : span.stop = span.start + chunk.lines.length

theorem Scan.spansFrom_eq {lines : List Line} {indent : Nat} {chunks : List Chunk}
    (before : List Line)
    (hcut : ∀ chunk ∈ chunks, ∃ first rest, chunk = Chunk.ofLines indent first rest)
    (hlines : lines = before ++ chunks.flatMap Chunk.lines) :
    ∃ found, spansFrom lines indent (startNumbers before.length chunks) = ended (some found) ∧
      List.Forall₂ (Span.At lines) found chunks := by
  induction chunks generalizing before with
  | nil => exact ⟨[], rfl, .nil⟩
  | cons chunk chunks ih =>
    obtain ⟨⟨first, rest, hchunk⟩, hcut⟩ := List.forall_mem_cons.1 hcut
    rw [List.flatMap_cons, ← List.append_assoc] at hlines
    obtain ⟨others, hothers, hat⟩ := ih (before ++ chunk.lines) hcut hlines
    rw [List.length_append] at hothers
    -- the next chunk starts where this one ends, and the last one ends with the lines
    have hstop : (startNumbers (before.length + chunk.lines.length) chunks).head?.getD
        lines.length = before.length + chunk.lines.length := by
      cases chunks with
      | nil => simp [startNumbers, hlines]
      | cons next chunks => rfl
    have hbody : bodyEnd lines indent before.length (before.length + chunk.lines.length) =
        ended (some (before.length + chunk.body.length)) := by
      have hback := bodyEnd_eq indent before first rest (chunks.flatMap Chunk.lines)
      rw [← hchunk] at hback
      rw [← hback, hlines, hchunk, Chunk.lines_ofLines]
      simp [Nat.add_assoc]
    refine ⟨⟨before.length, before.length + chunk.body.length,
      before.length + chunk.lines.length⟩ :: others, ?_,
      .cons ⟨⟨before, _, hlines, rfl⟩, rfl, rfl⟩ hat⟩
    rw [startNumbers, spansFrom, hstop, hbody, some_bind, hothers, some_bind, pure_eq]

/-- **The spans of a collection are those of its chunks**, and there are none where there are no
chunks. -/
theorem Scan.spans_eq {kind : BlockKind} {indent : Nat} {lines lead : List Line} {first : Line}
    {more : List Line} (hfirst : lineRole kind indent first = .starts)
    (hlines : lead ++ first :: more = lines) :
    (chunks? kind indent (first :: more) = none ∧
      spans kind lines lead.length indent = ended none) ∨
    ∃ chunks found, chunks? kind indent (first :: more) = some chunks ∧
      spans kind lines lead.length indent = ended (some found) ∧
      List.Forall₂ (Span.At lines) found chunks ∧
      ∀ chunk ∈ chunks, lineRole kind indent chunk.first = .starts := by
  rw [spans, ← hlines, List.drop_left, starts_eq]
  cases hchunks : chunks? kind indent (first :: more) with
  | none =>
    have hafter : chunksAfter? kind indent (first :: more) = none :=
      Option.map_eq_none_iff.1 hchunks
    rw [hafter]
    exact .inl ⟨rfl, rfl⟩
  | some chunks =>
    have hafter := chunksAfter?_of_starts hfirst hchunks
    have happend : lead ++ first :: more = lead ++ chunks.flatMap Chunk.lines := by
      rw [← append_flatMap_lines_of_chunksAfter? hafter, List.nil_append]
    have hcut : ∀ chunk ∈ chunks, ∃ first rest, chunk = Chunk.ofLines indent first rest := by
      intro chunk hchunk
      obtain ⟨first, rest, heq, -⟩ := exists_ofLines_of_chunksAfter? hafter chunk hchunk
      exact ⟨first, rest, heq⟩
    obtain ⟨found, hfound, hat⟩ := spansFrom_eq lead hcut happend
    rw [hafter]
    exact .inr ⟨chunks, found, rfl, hfound, hat, starts_of_chunksAfter? hafter⟩

/-! ### Lines of a span -/

namespace Span.At

variable {lines : List Line} {span : Span} {chunk : Chunk}

theorem lineAt_start (h : Span.At lines span chunk) :
    lineAt lines span.start = ended (some chunk.first) := by
  obtain ⟨before, after, hlines, hstart⟩ := h.exists_append
  rw [lineAt_eq, hlines, ← hstart, List.append_assoc, List.getElem?_append_right le_rfl,
    Nat.sub_self]
  rfl

theorem linesBetween_body (h : Span.At lines span chunk) :
    linesBetween lines span.start span.bodyEnd = ended (some chunk.body) := by
  obtain ⟨before, after, hlines, hstart⟩ := h.exists_append
  refine linesBetween_eq.2 ⟨before, chunk.trailer ++ after, ?_, hstart, ?_⟩
  · rw [hlines, Chunk.lines]
    simp
  · rw [hstart, h.bodyEnd_eq]

theorem linesBetween_nested (h : Span.At lines span chunk) :
    linesBetween lines (span.start + 1) span.bodyEnd = ended (some chunk.nested) := by
  obtain ⟨before, after, hlines, hstart⟩ := h.exists_append
  refine linesBetween_eq.2 ⟨before ++ [chunk.first], chunk.trailer ++ after, ?_, ?_, ?_⟩
  · rw [hlines, Chunk.lines, Chunk.body]
    simp
  · rw [List.length_append, hstart, List.length_singleton]
  · rw [List.length_append, hstart, List.length_singleton, h.bodyEnd_eq, Chunk.body,
      List.length_cons]
    omega

theorem linesBetween_trailer (h : Span.At lines span chunk) :
    linesBetween lines span.bodyEnd span.stop = ended (some chunk.trailer) := by
  obtain ⟨before, after, hlines, hstart⟩ := h.exists_append
  refine linesBetween_eq.2 ⟨before ++ chunk.body, after, ?_, ?_, ?_⟩
  · rw [hlines, Chunk.lines]
    simp
  · rw [List.length_append, hstart, h.bodyEnd_eq]
  · rw [List.length_append, hstart, h.stop_eq, Chunk.lines, List.length_append]
    omega

end Span.At

end OperatorBundle.Layout
