import Mathlib.Data.List.TakeWhile
import OperatorBundle.Proofs.Layout.Parts

/-!
Chunks as they are cut. Each starts where an entry or item starts, at the indentation of its
collection, and its parts are runs of the lines it was cut from. The dash of an item stands at that
indentation, so that blanking it moves the start of the line to the right and nothing else.
-/

namespace OperatorBundle.Layout

open OperatorBundle.Text

deriving instance DecidableEq for Chunk

/-! ### First lines -/

theorem lineRole_eq_starts {kind : BlockKind} {indent : Nat} {line : Line}
    (h : lineRole kind indent line = .starts) :
    isBlankOrComment line = false ∧ indentation line = indent ∧
      (isItem (textFrom indent line) = true ↔ kind = .sequence) := by
  unfold lineRole at h
  split_ifs at h with hblank hleft hright
  refine ⟨Bool.eq_false_iff.2 hblank, by omega, ?_⟩
  split at h <;> simp_all

/-- Each chunk is cut from a line that starts one and the lines after it. -/
theorem exists_ofLines_of_chunksAfter? {kind : BlockKind} {indent : Nat}
    {lines loose : List Line} {chunks : List Chunk}
    (h : chunksAfter? kind indent lines = some (loose, chunks)) :
    ∀ chunk ∈ chunks, ∃ first rest, chunk = Chunk.ofLines indent first rest ∧
      lineRole kind indent first = .starts := by
  induction lines generalizing loose chunks with
  | nil =>
    obtain ⟨rfl, rfl⟩ : [] = loose ∧ [] = chunks := by simpa [chunksAfter?] using h
    simp
  | cons line more ih =>
    rw [chunksAfter?] at h
    split at h
    · rename_i loose' chunks' hmore hrole
      obtain ⟨rfl, rfl⟩ := Prod.mk.inj (Option.some.inj h)
      exact List.forall_mem_cons.2 ⟨⟨line, loose', rfl, hrole⟩, ih hmore⟩
    · rename_i loose' chunks' hmore hrole
      obtain ⟨rfl, rfl⟩ := Prod.mk.inj (Option.some.inj h)
      exact ih hmore
    · cases h

theorem starts_of_chunksAfter? {kind : BlockKind} {indent : Nat} {lines loose : List Line}
    {chunks : List Chunk} (h : chunksAfter? kind indent lines = some (loose, chunks)) :
    ∀ chunk ∈ chunks, lineRole kind indent chunk.first = .starts := by
  intro chunk hchunk
  obtain ⟨first, rest, rfl, hrole⟩ := exists_ofLines_of_chunksAfter? h chunk hchunk
  exact hrole

/-- Nothing stands above the first chunk if the first line starts one. -/
theorem chunksAfter?_of_starts {kind : BlockKind} {indent : Nat} {first : Line} {more : List Line}
    {chunks : List Chunk} (hfirst : lineRole kind indent first = .starts)
    (h : chunks? kind indent (first :: more) = some chunks) :
    chunksAfter? kind indent (first :: more) = some ([], chunks) := by
  unfold chunks? at h
  obtain ⟨⟨loose, found⟩, hafter, rfl⟩ := Option.map_eq_some_iff.1 h
  rw [hafter]
  rw [chunksAfter?, hfirst] at hafter
  split at hafter
  · obtain ⟨rfl, -⟩ := Prod.mk.inj (Option.some.inj hafter)
    rfl
  · rename_i hcontra
    cases hcontra
  · cases hafter

/-! ### Runs of lines -/

theorem Chunk.lines_isInfix {chunks : List Chunk} {chunk : Chunk} (h : chunk ∈ chunks) :
    chunk.lines <:+: chunks.flatMap Chunk.lines :=
  List.infix_of_mem_flatten (List.mem_map_of_mem h)

theorem Chunk.body_isInfix (chunk : Chunk) : chunk.body <:+: chunk.lines :=
  (List.prefix_append _ _).isInfix

theorem Chunk.nested_isInfix (chunk : Chunk) : chunk.nested <:+: chunk.lines :=
  (List.suffix_cons _ _).isInfix.trans chunk.body_isInfix

theorem Chunk.trailer_isInfix (chunk : Chunk) : chunk.trailer <:+: chunk.lines :=
  (List.suffix_append _ _).isInfix

theorem AreLines.of_chunksAfter? {kind : BlockKind} {indent : Nat} {lines loose : List Line}
    {chunks : List Chunk} (h : AreLines lines)
    (hchunks : chunksAfter? kind indent lines = some (loose, chunks)) :
    ∀ chunk ∈ chunks, AreLines chunk.lines := by
  intro chunk hchunk
  refine h.of_isInfix ((Chunk.lines_isInfix hchunk).trans ?_)
  rw [← append_flatMap_lines_of_chunksAfter? hchunks]
  exact (List.suffix_append _ _).isInfix

/-! ### Dashes -/

theorem take_indentation (line : Line) :
    line.take (indentation line) = spaces (indentation line) := by
  have htake : line.take (indentation line) = line.takeWhile (· = ' ') :=
    (List.prefix_iff_eq_take.1 (List.takeWhile_prefix _)).symm
  rw [htake]
  refine List.eq_replicate_of_mem ?_
  intro c hc
  simpa using List.mem_takeWhile_imp hc

theorem getElem?_of_lt_indentation {text : Line} {i : Nat} (h : i < indentation text) :
    text[i]? = some ' ' := by
  have htake : (text.take (indentation text))[i]? = some ' ' := by
    rw [take_indentation]
    simp [spaces, h]
  rwa [List.getElem?_take_of_lt h] at htake

theorem exists_of_getElem?_spaces {text : Line} {indent : Nat}
    (h : ∀ i ≤ indent, text[i]? = some ' ') : ∃ more, text = spaces indent ++ ' ' :: more := by
  refine ⟨text.drop (indent + 1), ?_⟩
  have htake : text.take (indent + 1) = spaces indent ++ [' '] := by
    rw [spaces, ← List.replicate_succ']
    refine List.ext_getElem? ?_
    intro i
    by_cases hi : i ≤ indent
    · rw [List.getElem?_take_of_lt (by omega), h i hi, List.getElem?_replicate_of_lt (by omega)]
    · rw [List.getElem?_eq_none (by simp; omega), List.getElem?_eq_none (by simp; omega)]
  rw [← List.singleton_append, ← List.append_assoc, ← htake, List.take_append_drop]

theorem content_prefix (line : Line) : content line <+: line := by
  have h := List.dropWhile_suffix (fun c => c = '\n' || c = '\r') (l := line.reverse)
  rwa [← List.reverse_prefix, List.reverse_reverse] at h

/-- The first line of an item is its dash, behind the indentation. -/
theorem exists_dash {indent : Nat} {line : Line} (h : lineRole .sequence indent line = .starts) :
    ∃ more, line = spaces indent ++ '-' :: more := by
  obtain ⟨-, hindent, hitem⟩ := lineRole_eq_starts h
  have hdash : ∃ rest, (content line).drop indent = '-' :: rest := by
    have hitem := hitem.2 rfl
    unfold textFrom isItem at hitem
    split at hitem
    · exact ⟨_, ‹_›⟩
    · exact ⟨_, ‹_›⟩
    · cases hitem
  obtain ⟨rest, hrest⟩ := hdash
  obtain ⟨ending, hending⟩ := content_prefix line
  -- the dash is not in the end of the line, which `content` leaves out
  have hlength : indent ≤ (content line).length := by
    by_contra hlt
    rw [List.drop_of_length_le (by omega)] at hrest
    cases hrest
  have hdrop : line.drop indent = '-' :: (rest ++ ending) := by
    rw [← hending, List.drop_append_of_le_length hlength, hrest, List.cons_append]
  refine ⟨rest ++ ending, ?_⟩
  rw [← hdrop, ← hindent, ← take_indentation, List.take_append_drop]

/-- Setting a character behind an indentation. -/
theorem set_spaces (indent : Nat) (c d : Char) (more : List Char) :
    (spaces indent ++ c :: more).set indent d = spaces indent ++ d :: more := by
  have hlength : (spaces indent).length = indent := by simp [spaces]
  rw [List.set_append_right _ _ (by omega), hlength, Nat.sub_self, List.set_cons_zero]

theorem indentation_spaces_append (indent : Nat) (rest : List Char) :
    indentation (spaces indent ++ rest) = indent + indentation rest := by
  have hspaces : ∀ c ∈ spaces indent, decide (c = ' ') = true := by
    intro c hc
    simpa using List.eq_of_mem_replicate hc
  rw [indentation, List.takeWhile_append_of_pos hspaces, List.length_append]
  simp [spaces, indentation]

theorem indentation_dashed (indent : Nat) (more : List Char) :
    indentation (spaces indent ++ '-' :: more) = indent := by
  rw [indentation_spaces_append]
  simp [indentation]

theorem lt_indentation_blanked (indent : Nat) (more : List Char) :
    indent < indentation (spaces indent ++ ' ' :: more) := by
  rw [indentation_spaces_append]
  simp [indentation]

/-- A character in place of another that ends no line. -/
theorem getLast?_set {text : List Char} {i : Nat} {c d : Char} (hc : text[i]? = some c)
    (hcn : c ≠ '\n') (hdn : d ≠ '\n') :
    (text.set i d).getLast? = some '\n' ↔ text.getLast? = some '\n' := by
  rw [List.getLast?_eq_getElem?, List.getLast?_eq_getElem?, List.length_set, List.getElem?_set]
  split
  · rename_i hi
    subst hi
    rw [hc]
    split <;> simp [hcn, hdn]
  · rfl

theorem joined_dash {part : List Char} {indent : Nat} (h : part[indent]? = some ' ')
    (rest : List Char) :
    joined (part.set indent '-') rest = (joined part rest).set indent '-' := by
  have hlength : indent < part.length := (List.getElem?_eq_some_iff.1 h).1
  have hne : (part.set indent '-').isEmpty = part.isEmpty := by
    rw [Bool.eq_iff_iff, List.isEmpty_iff, List.isEmpty_iff, List.set_eq_nil_iff]
  unfold joined
  simp only [hne, getLast?_set h (show ' ' ≠ '\n' by decide) (show '-' ≠ '\n' by decide)]
  split <;> rw [List.set_append_left _ _ hlength]

/-- Behind an indentation, a dash goes before a text that starts further right. -/
theorem StartsAt.dash {indent deeper : Nat} {text : List Char} (h : StartsAt deeper text)
    (hlt : indent < deeper) : StartsAt indent (text.set indent '-') := by
  obtain ⟨c, rest, rfl, hlast⟩ := h
  obtain ⟨gap, rfl⟩ := Nat.exists_eq_add_of_lt hlt
  -- the dash takes the place of one of the spaces
  have hsplit : spaces (indent + gap + 1) = spaces indent ++ ' ' :: spaces gap := by
    simp only [spaces, ← List.replicate_succ, List.replicate_append_replicate, Nat.add_assoc]
  rw [hsplit, List.append_assoc, List.cons_append, set_spaces]
  refine ⟨'-', spaces gap ++ c :: rest, rfl, ?_⟩
  rw [← List.cons_append, List.getLast?_append, hlast, Option.some_or]

theorem StartsAt.getElem? {indent deeper : Nat} {text : List Char} (h : StartsAt deeper text)
    (hlt : indent < deeper) : text[indent]? = some ' ' := by
  obtain ⟨c, rest, rfl, -⟩ := h
  rw [List.getElem?_append_left (by simpa [spaces] using hlt)]
  simp [spaces, hlt]

theorem IsLine.set {line : Line} (h : IsLine line) (i : Nat) {c : Char} (hc : c ≠ '\n') :
    IsLine (line.set i c) := by
  refine ⟨by simpa using h.ne_nil, ?_⟩
  rw [List.dropLast_eq_take, List.length_set, List.take_set, ← List.dropLast_eq_take]
  intro hmem
  rcases List.mem_or_eq_of_mem_set hmem with hmem | hcn
  · exact h.single hmem
  · exact hc hcn.symm

theorem getElem?_dash {indent : Nat} {first : Line}
    (h : lineRole .sequence indent first = .starts) : first[indent]? = some '-' := by
  obtain ⟨more, rfl⟩ := exists_dash h
  rw [List.getElem?_append_right (by simp [spaces])]
  simp [spaces]

/-- A line with others below it in its chunk has its line feed. -/
theorem getLast?_first {chunk : Chunk} (h : AreLines chunk.body) (hnested : chunk.nested ≠ []) :
    chunk.first.getLast? = some '\n' := by
  obtain ⟨line, more, hn⟩ := List.exists_cons_of_ne_nil hnested
  have hended := h.ended
  rw [Chunk.body, hn] at hended
  exact (List.isChain_cons_cons.1 hended).1

theorem areLines_blankDash {indent : Nat} {chunk : Chunk} (h : AreLines chunk.body)
    (hfirst : lineRole .sequence indent chunk.first = .starts) :
    AreLines (blankDash indent chunk) := by
  -- the character that is blanked is a dash, so no line end is lost
  have hdash := getElem?_dash hfirst
  obtain ⟨hline, hnested⟩ := List.forall_mem_cons.1 h.isLine
  refine ⟨List.forall_mem_cons.2 ⟨hline.set indent (by decide), hnested⟩, ?_⟩
  have hended := h.ended
  unfold Chunk.body at hended
  unfold blankDash
  cases hn : chunk.nested with
  | nil => exact .singleton _
  | cons line others =>
    rw [hn] at hended
    obtain ⟨hlast, hothers⟩ := List.isChain_cons_cons.1 hended
    exact List.isChain_cons_cons.2
      ⟨(getLast?_set hdash (by decide) (by decide)).2 hlast, hothers⟩

end OperatorBundle.Layout
