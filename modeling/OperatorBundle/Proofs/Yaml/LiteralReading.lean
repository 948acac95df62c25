import OperatorBundle.Proofs.Yaml.Characters
import OperatorBundle.Proofs.Layout.Shift
import OperatorBundle.Yaml.Scalar.Block

/-!
Literals read back. The reader of a block scalar takes the lines of a literal, at whatever margin
they stand, together with the indentation of what comes behind them, and the marks of the header let
it end with the breaks that were written.
-/

namespace OperatorBundle.Yaml

open OperatorBundle.Text OperatorBundle.Layout

/-! ### What has been read -/

namespace BlockText

variable {block : BlockText} {broken : Bool} {c : Char} {cs : List Char}

/-- All that has been read, latest first. -/
def total (block : BlockText) : List Char := block.breaks ++ (block.lineBreak.toList ++ block.text)

/-- One more character of a literal; the flag says that a break was read last. -/
def grow (block : BlockText) (broken : Bool) (c : Char) : BlockText :=
  if endsLine c then
    if broken then { block with breaks := c :: block.breaks } else { block with lineBreak := some c }
  else if broken then block.startLine false c
  else { block with text := c :: block.text }

/-- The characters of a literal. -/
def growAll (block : BlockText) (broken : Bool) : List Char → BlockText
  | [] => block
  | c :: rest => (block.grow broken c).growAll (endsLine c) rest

/-- Within a line no break waits. -/
def Continues (block : BlockText) (broken : Bool) : Prop :=
  broken = false → block.lineBreak = none ∧ block.breaks = []

theorem continues_grow (h : block.Continues broken) :
    (block.grow broken c).Continues (endsLine c) := by
  intro hc
  unfold grow startLine
  cases broken with
  | true => simp [hc]
  | false => simpa [hc] using h rfl

theorem total_grow (h : block.Continues broken) :
    (block.grow broken c).total = c :: block.total := by
  unfold grow startLine total
  cases broken with
  | true => by_cases hc : endsLine c <;> simp [hc]
  | false =>
    obtain ⟨hline, hbreaks⟩ := h rfl
    by_cases hc : endsLine c <;> simp [hc, hline, hbreaks]

theorem growAll_append (block : BlockText) (broken : Bool) (cs more : List Char) :
    block.growAll broken (cs ++ more) =
      (block.growAll broken cs).growAll (cs.getLast?.elim broken endsLine) more := by
  induction cs generalizing block broken with
  | nil => rfl
  | cons c rest ih =>
    rw [List.cons_append, growAll, ih, List.getLast?_cons]
    cases rest.getLast? <;> rfl

theorem continues_growAll (h : block.Continues broken) (cs : List Char) :
    (block.growAll broken cs).Continues (cs.getLast?.elim broken endsLine) := by
  induction cs generalizing block broken with
  | nil => exact h
  | cons c rest ih =>
    have := ih (continues_grow (c := c) h)
    rw [List.getLast?_cons]
    cases hlast : rest.getLast? <;> rw [hlast] at this <;> exact this

theorem total_growAll (h : block.Continues broken) (cs : List Char) :
    (block.growAll broken cs).total = cs.reverse ++ block.total := by
  induction cs generalizing block broken with
  | nil => rfl
  | cons c rest ih => rw [growAll, ih (continues_grow h), total_grow h]; simp

theorem continues_empty : empty.Continues true := by
  intro h
  cases h

/-- Within a line all that has been read is text. -/
theorem text_growAll (hne : cs ≠ []) (hlast : endsLine (cs.getLast hne) = false) :
    (empty.growAll true cs).text = cs.reverse := by
  have hcontinues := continues_growAll continues_empty cs
  rw [List.getLast?_eq_some_getLast hne] at hcontinues
  obtain ⟨hline, hbreaks⟩ := hcontinues hlast
  have htotal := total_growAll continues_empty cs
  rw [total, hline, hbreaks] at htotal
  simpa [total, empty] using htotal

end BlockText

/-- What happens to the breaks at the end of a literal that is written. -/
def chompingOf (cs : List Char) : Chomping :=
  match cs.reverse with
  | last :: before =>
    if !endsLine last then .strip else if before.head?.all endsLine then .keep else .clip
  | [] => .strip

/-- With the break that ends its last line a literal is left as it was written. -/
theorem finish_growAll {cs : List Char} (hne : cs ≠ []) :
    let block := BlockText.empty.growAll true cs
    (if cs.getLast?.any endsLine then block else { block with lineBreak := some '\n' }).finish
      (chompingOf cs) = cs := by
  obtain ⟨before, last, rfl⟩ : ∃ before last, cs = before ++ [last] :=
    ⟨cs.dropLast, cs.getLast hne, (List.dropLast_append_getLast hne).symm⟩
  have htotal := BlockText.total_growAll BlockText.continues_empty (before ++ [last])
  by_cases hlast : endsLine last
  · cases hbefore : before.getLast?.all endsLine with
    | true =>
      have hkeep : chompingOf (before ++ [last]) = .keep := by
        simp [chompingOf, hlast, hbefore]
      rw [hkeep]
      simpa [hlast, BlockText.finish, BlockText.total, BlockText.empty] using
        congrArg List.reverse htotal
    | false =>
      have hclip : chompingOf (before ++ [last]) = .clip := by
        simp [chompingOf, hlast, hbefore]
      have hbeforeNe : before ≠ [] := by
        rintro rfl
        cases hbefore
      rw [List.getLast?_eq_some_getLast hbeforeNe] at hbefore
      have hline : endsLine (before.getLast hbeforeNe) = false := by simpa using hbefore
      have htext := BlockText.text_growAll hbeforeNe hline
      have hgrow : BlockText.empty.growAll true (before ++ [last]) =
          { BlockText.empty.growAll true before with lineBreak := some last } := by
        rw [BlockText.growAll_append, List.getLast?_eq_some_getLast hbeforeNe]
        simp [BlockText.growAll, BlockText.grow, hline, hlast]
      rw [hclip, hgrow]
      simp [hlast, BlockText.finish, htext]
  · have hstrip : chompingOf (before ++ [last]) = .strip := by
      simp [chompingOf, hlast]
    have hline : endsLine ((before ++ [last]).getLast (by simp)) = false := by simpa using hlast
    have htext := BlockText.text_growAll _ hline
    rw [hstrip]
    simp [hlast, BlockText.finish, htext]

/-! ### The lines -/

section Lines

variable {least : Nat} {rest : List Char} {width : Nat} {block : BlockText}

theorem blockLines_spaces {column next : Nat} (h : column + next ≤ width) (rest : List Char)
    (block : BlockText) (used : Nat) :
    blockLines false least (spaces next ++ rest) (.indent width column) block used =
      blockLines false least rest (.indent width (column + next)) block (used + next) := by
  induction next generalizing column used with
  | zero => rfl
  | succ next ih =>
    show blockLines false least (' ' :: (spaces next ++ rest)) _ block used = _
    have hspace : (decide (column < width) && decide (' ' = ' ')) = true := by
      simp only [decide_true, Bool.and_true, decide_eq_true_eq]
      omega
    rw [blockLines, if_pos hspace, ih (by omega), Nat.add_right_comm column, Nat.add_assoc column,
      Nat.add_right_comm used, Nat.add_assoc used]

theorem isPad_of_isBreak {c : Char} (hc : isBreak c) : isPad c = false := by
  simp only [isBreak, Bool.or_eq_true, decide_eq_true_eq] at hc
  rcases hc with (rfl | rfl) | rfl <;> decide

theorem blockLines_break {c : Char} (hc : isBreak c) (column : Nat) (rest : List Char)
    (block : BlockText) (used : Nat) :
    blockLines false least (c :: rest) (.indent width column) block used =
      blockLines false least rest (.indent width 0) { block with breaks := c :: block.breaks }
        (used + 1) := by
  have hpad := isPad_of_isBreak hc
  simp only [isPad, Bool.or_eq_false_iff, decide_eq_false_iff_not] at hpad
  rw [blockLines, if_neg (by simp [hpad.1]), if_neg (by simp [hpad.2]), if_pos hc]

theorem blockLines_char {c : Char} (hbreak : isBreak c = false)
    (rest : List Char) (block : BlockText) (used : Nat) :
    blockLines false least (c :: rest) (.indent width width) block used =
      blockLines false least rest (.line width) (block.startLine false c) (used + 1) := by
  rw [blockLines, if_neg (by simp), if_neg (by simp), if_neg (by simp [hbreak]), if_pos rfl]

/-- Where a reader stands after a break, or in a line. -/
def BlockState.behind (width : Nat) (broken : Bool) : BlockState :=
  if broken then .indent width 0 else .line width

theorem blockLines_margin (right : Nat) {indent : Nat} {broken : Option Char}
    (hbroken : ∀ b ∈ broken, b = '\n') {c : Char} (hends : endsLine c = false)
    (rest : List Char) (block : BlockText) (used : Nat) :
    blockLines false least (margin right indent broken ++ c :: rest)
        (.behind (right + indent) broken.isSome) block used =
      blockLines false least rest (.line (right + indent)) (block.grow broken.isSome c)
        (used + (margin right indent broken ++ [c]).length) := by
  have hbreak := isBreak_eq_false hends
  cases broken with
  | none =>
    show blockLines false least (c :: rest) (.line (right + indent)) block used = _
    rw [blockLines, if_neg (by simp [hbreak])]
    simp [BlockText.grow, hends, margin]
  | some b =>
    obtain rfl := hbroken b rfl
    show blockLines false least (spaces (right + indent) ++ c :: rest) (.indent (right + indent) 0)
      block used = _
    rw [blockLines_spaces (by omega), Nat.zero_add, blockLines_char hbreak]
    simp [BlockText.grow, hends, margin, spaces, Nat.add_assoc]

theorem blockLines_drift (right : Nat) {indent : Nat} {broken : Option Char} {c : Char}
    (hends : endsLine c) (hbreak : isBreak c) (rest : List Char) (block : BlockText) (used : Nat) :
    blockLines false least (drift right broken c ++ c :: rest)
        (.behind (right + indent) broken.isSome) block used =
      blockLines false least rest (.indent (right + indent) 0) (block.grow broken.isSome c)
        (used + (drift right broken c ++ [c]).length) := by
  cases broken with
  | none =>
    have hdrift : drift right none c = [] := by simp [drift]
    rw [hdrift]
    show blockLines false least (c :: rest) (.line (right + indent)) block used = _
    rw [blockLines, if_pos hbreak]
    simp [BlockText.grow, hends]
  | some b =>
    obtain ⟨next, hnext, hle⟩ : ∃ next, drift right (some b) c = spaces next ∧ next ≤ right := by
      unfold drift
      split
      · exact ⟨right, rfl, le_rfl⟩
      · exact ⟨0, rfl, Nat.zero_le _⟩
    rw [hnext]
    show blockLines false least (spaces next ++ c :: rest) (.indent (right + indent) 0) block used =
      _
    rw [blockLines_spaces (by omega), blockLines_break hbreak]
    simp [BlockText.grow, hends, spaces, Nat.add_assoc]

theorem blockLines_literalText (right : Nat) {indent : Nat} {cs : List Char}
    (hwritable : ∀ c ∈ cs, isWritable c) (hfeeds : breaksAtFeeds cs) {broken : Option Char}
    (hbroken : ∀ b ∈ broken, b ≠ '\n' → cs.head?.any endsLine) (after : List Char)
    (block : BlockText) (used : Nat) :
    blockLines false least (literalText right indent cs broken ++ after)
        (.behind (right + indent) broken.isSome) block used =
      blockLines false least after
        (.behind (right + indent) (cs.getLast?.elim broken.isSome endsLine))
        (block.growAll broken.isSome cs)
        (used + (literalText right indent cs broken).length) := by
  induction cs generalizing broken block used with
  | nil => rfl
  | cons c more ih =>
    obtain ⟨hc, hmore⟩ := List.forall_mem_cons.1 hwritable
    obtain ⟨hnext, hmoreFeeds⟩ := Bool.and_eq_true_iff.1 hfeeds
    have hlast {b : Option Char} (hb : b.isSome = endsLine c) :
        (c :: more).getLast?.elim broken.isSome endsLine = more.getLast?.elim b.isSome endsLine := by
      rw [List.getLast?_cons]
      cases more.getLast? <;> simp [hb]
    unfold literalText
    by_cases hends : endsLine c
    · have hnextBroken : ∀ b ∈ some c, b ≠ '\n' → more.head?.any endsLine := by
        intro b hb hne
        obtain rfl := Option.mem_some_iff.1 hb
        simpa [hends, hne] using hnext
      have hmore := ih hmore hmoreFeeds hnextBroken (block.grow broken.isSome c)
        (used + (drift right broken c ++ [c]).length)
      rw [if_pos hends, hlast (b := some c) (by simp [hends]), List.append_assoc, List.cons_append,
        blockLines_drift right hends (isBreak_of_endsLine hends hc)]
      refine hmore.trans ?_
      rw [BlockText.growAll, hends]
      simp [Nat.add_assoc, Nat.add_comm 1]
    · have hfeed : ∀ b ∈ broken, b = '\n' := by
        intro b hb
        by_contra hne
        exact hends (by simpa using hbroken b hb hne)
      have hunbroken : ∀ b ∈ (none : Option Char), b ≠ '\n' → more.head?.any endsLine := by simp
      have hmore := ih hmore hmoreFeeds hunbroken (block.grow broken.isSome c)
        (used + (margin right indent broken ++ [c]).length)
      rw [if_neg hends, hlast (b := none) (by simp [hends]), List.append_assoc, List.cons_append,
        blockLines_margin right hfeed (by simpa using hends)]
      refine hmore.trans ?_
      rw [BlockText.growAll]
      simp [Nat.add_assoc, Nat.add_comm 1, hends]

/-- A line that is indented less ends the lines, but its indentation is taken. -/
theorem blockLines_end {next : Nat} (hnext : next < width)
    (hrest : ∀ c ∈ rest.head?, isPad c = false ∧ isBreak c = false) (block : BlockText)
    (used : Nat) :
    blockLines false least (spaces next ++ rest) (.indent width 0) block used =
      .ok (block, used + next) := by
  rw [blockLines_spaces (by omega), Nat.zero_add]
  cases rest with
  | nil => rfl
  | cons c rest =>
    obtain ⟨hpad, hbreak⟩ := hrest c rfl
    simp only [isPad, Bool.or_eq_false_iff, decide_eq_false_iff_not] at hpad
    rw [blockLines, if_neg (by simp [hpad.1]), if_neg (by simp [hpad.2]), if_neg (by simp [hbreak]),
      if_neg (by omega)]

/-- The indentation of a first line that is not empty is found as if it were known. -/
theorem blockLines_finding (hleast : least ≤ width) {c : Char} (hpad : isPad c = false)
    (hbreak : isBreak c = false) (rest : List Char) (block : BlockText) (used : Nat) :
    blockLines false least (spaces width ++ c :: rest) (.finding 0 0) block used =
      blockLines false least (spaces width ++ c :: rest) (.indent width 0) block used := by
  have hfound {deepest : Nat} (hdeepest : deepest ≤ width) (used : Nat) :
      blockLines false least (c :: rest) (.finding width deepest) block used =
        blockLines false least rest (.line width) (block.startLine false c) (used + 1) := by
    simp only [isPad, Bool.or_eq_false_iff, decide_eq_false_iff_not] at hpad
    rw [blockLines]
    dsimp only
    rw [if_neg hpad.1, if_neg hpad.2, if_neg (by simp [hbreak]), if_pos (by omega),
      Nat.max_eq_right hdeepest, Nat.max_eq_left hleast]
  have hspaces (next : Nat) {column deepest : Nat} (used : Nat) (hcolumn : column + next = width)
      (hdeepest : deepest ≤ column) :
      blockLines false least (spaces next ++ c :: rest) (.finding column deepest) block used =
        blockLines false least rest (.line width) (block.startLine false c) (used + next + 1) := by
    induction next generalizing column deepest used with
    | zero =>
      obtain rfl := hcolumn
      exact hfound hdeepest used
    | succ next ih =>
      show blockLines false least (' ' :: (spaces next ++ c :: rest)) _ block used = _
      rw [blockLines]
      dsimp only
      rw [if_pos rfl, ih _ (by omega) (by omega), Nat.add_right_comm used, Nat.add_assoc used]
  rw [hspaces width used (by omega) le_rfl, blockLines_spaces (by omega), Nat.zero_add,
    blockLines_char hbreak]

end Lines

/-! ### The header -/

/-- Whether a literal needs its indentation in the header. -/
def hintsIndent (cs : List Char) : Bool := cs.head?.any fun c => c = ' ' || endsLine c

/-- The mark of a chomping in a header. -/
def Chomping.mark : Chomping → List Char
  | .strip => ['-']
  | .clip => []
  | .keep => ['+']

theorem literalMarks_eq (cs : List Char) : Page.literalMarks cs =
    (if hintsIndent cs then ['2'] else []) ++ (chompingOf cs).mark := by
  unfold Page.literalMarks chompingOf hintsIndent
  cases cs.reverse with
  | nil => rfl
  | cons last before =>
    dsimp only
    congr 1
    split_ifs <;> rfl

/-- The header of a literal is read as what its text needs. -/
theorem blockMarks_literalMarks (cs body : List Char) :
    blockMarks (Page.literalMarks cs ++ '\n' :: body) =
      .ok (⟨chompingOf cs, if hintsIndent cs then 2 else 0⟩, '\n' :: body) := by
  rw [literalMarks_eq]
  cases chompingOf cs <;> cases hintsIndent cs <;> rfl

/-- The lines of a literal are read up to the next line, the first one where it is expected. -/
theorem blockLines_literal (least right : Nat) {indent : Nat} {cs : List Char}
    (hliteral : (obstacles cs).literal = false) (hfeeds : breaksAtFeeds cs) {next : Nat}
    (hnext : next < right + indent) {rest : List Char}
    (hrest : ∀ c ∈ rest.head?, isPad c = false ∧ isBreak c = false) :
    ∃ block : BlockText, block.finish (chompingOf cs) = cs ∧
      blockLines false least (literalText right indent cs (some '\n') ++
          ((if cs.getLast?.any endsLine then [] else ['\n']) ++ (spaces next ++ rest)))
          (.indent (right + indent) 0) .empty 0 =
        .ok (block, (literalText right indent cs (some '\n')).length +
          ((if cs.getLast?.any endsLine then [] else ['\n']).length + next)) := by
  have hne : cs ≠ [] := by
    rintro rfl
    exact absurd hliteral (by decide)
  have hfeed : ∀ b ∈ some '\n', b ≠ '\n' → cs.head?.any endsLine := by simp
  refine ⟨_, finish_growAll hne, (blockLines_literalText right (isWritable_of_literal hliteral)
    hfeeds hfeed _ .empty 0).trans ?_⟩
  rw [List.getLast?_eq_some_getLast hne]
  by_cases hlast : endsLine (cs.getLast hne)
  · simp only [Option.elim_some, Option.any_some, hlast, if_true, List.nil_append, Option.isSome_some]
    show blockLines false least _ (.indent (right + indent) 0) _ _ = _
    rw [blockLines_end hnext hrest]
    simp
  · simp only [Option.elim_some, Option.any_some, hlast, if_false, Option.isSome_some,
      List.singleton_append, Bool.false_eq_true]
    show blockLines false least ('\n' :: _) (.line (right + indent)) _ _ = _
    rw [blockLines, if_pos (by decide), blockLines_end hnext hrest]
    simp [Nat.add_assoc]

/-- **A literal is read back**, with the indentation of the line behind it. Its lines stand at least
as far right as the reader asks for, and where the header says if it holds a number. -/
theorem blockScalar_literal (right : Nat) {indent : Nat} {outer : Int} {cs : List Char}
    (hliteral : (obstacles cs).literal = false) (hfeeds : breaksAtFeeds cs)
    (hleast : (max (outer + 1) 1).toNat ≤ right + indent)
    (hhint : hintsIndent cs → (max outer 0).toNat + 2 = right + indent)
    {next : Nat} (hnext : next < right + indent) {rest : List Char}
    (hrest : ∀ c ∈ rest.head?, isPad c = false ∧ isBreak c = false) :
    blockScalar false outer (Page.literalMarks cs ++ '\n' ::
        (literalText right indent cs (some '\n') ++
          ((if cs.getLast?.any endsLine then [] else ['\n']) ++ (spaces next ++ rest)))) =
      .ok (cs, (Page.literalMarks cs).length + 1 +
        ((literalText right indent cs (some '\n')).length +
          ((if cs.getLast?.any endsLine then [] else ['\n']).length + next))) := by
  set body := literalText right indent cs (some '\n') ++
    ((if cs.getLast?.any endsLine then [] else ['\n']) ++ (spaces next ++ rest)) with hbody
  obtain ⟨block, hfinish, hlines⟩ := blockLines_literal (max (outer + 1) 1).toNat right
    hliteral hfeeds hnext hrest
  have hstart : blockLines false (max (outer + 1) 1).toNat body
      (if (if hintsIndent cs then 2 else 0) = 0 then .finding 0 0
        else .indent ((max outer 0).toNat + if hintsIndent cs then 2 else 0) 0) .empty 0 =
      blockLines false (max (outer + 1) 1).toNat body (.indent (right + indent) 0) .empty 0 := by
    by_cases hhints : hintsIndent cs
    · simp [hhints, hhint hhints]
    · obtain ⟨c, more, rfl⟩ := List.exists_cons_of_ne_nil (l := cs) (by
        rintro rfl
        exact absurd hliteral (by decide))
      have hc : ¬ (c = ' ' ∨ endsLine c) := by simpa [hintsIndent] using hhints
      obtain ⟨hspace, hends⟩ := not_or.1 hc
      have hpad := isPad_of_isWritable (isWritable_of_literal hliteral c List.mem_cons_self) hspace
      have hbreak := isBreak_eq_false (by simpa using hends)
      rw [hbody, literalText, if_neg hends, List.append_assoc, List.cons_append, if_neg hhints,
        if_pos rfl]
      exact blockLines_finding hleast hpad hbreak _ .empty 0
  rw [blockScalar, blockMarks_literalMarks]
  simp only [bind, Except.bind]
  rw [show restOfLine? ('\n' :: body) = some body from rfl]
  dsimp only
  rw [hstart, hlines]
  dsimp only
  rw [hfinish]
  simp only [List.length_append, List.length_cons]
  congr 2
  omega

end OperatorBundle.Yaml
