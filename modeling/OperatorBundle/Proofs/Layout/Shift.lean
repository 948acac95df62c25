import OperatorBundle.Layout.Fresh
import OperatorBundle.Proofs.Yaml.Characters

/-!
Shifting a written form. The lines of the text are known by their line feeds only, and every line but
an empty one is moved; so a written form that is moved is the written form with wider margins, as long
as the lines of its literals start behind line feeds.

* `shift_nodeText`: a written form that is moved is one with wider margins.
-/

namespace OperatorBundle.Layout

open OperatorBundle.Text OperatorBundle.Yaml

/-- A text whose lines start further right, from the start of a line or from within one. -/
def moved (right : Nat) : Bool → List Char → List Char
  | _, [] => []
  | atStart, c :: rest =>
    if c = '\n' then c :: moved right true rest
    else (if atStart then spaces right else []) ++ c :: moved right false rest

section Lines

variable {right : Nat} {text : List Char}

theorem indentLine_cons {c : Char} (hc : c ≠ '\n') (line : Line) :
    indentLine right (c :: line) = spaces right ++ c :: line.filter (· ≠ '\n') ++ ['\n'] := by
  simp [indentLine, hc]

/-- The lines of a text that ends with a line feed, each moved, and the first as it is. -/
theorem moved_lines (h : ∀ c ∈ text.getLast?, c = '\n') :
    (lines text).flatMap (indentLine right) = moved right true text ∧
      ∀ line more, lines text = line :: more → moved right false text =
        line.filter (· ≠ '\n') ++ '\n' :: more.flatMap (indentLine right) := by
  induction text with
  | nil => exact ⟨rfl, fun line more hlines => by cases hlines⟩
  | cons c rest ih =>
    by_cases hc : c = '\n'
    · have hrest : ∀ d ∈ rest.getLast?, d = '\n' := by
        intro d hd
        exact h d (by rw [List.getLast?_cons, Option.mem_def.1 hd]; rfl)
      subst hc
      refine ⟨?_, ?_⟩
      · simp [lines, moved, (ih hrest).1, indentLine]
      · intro line more hlines
        obtain ⟨rfl, rfl⟩ := List.cons.inj (hlines.symm.trans (if_pos rfl))
        simp [moved, (ih hrest).1]
    · cases rest with
      | nil => exact absurd (h c rfl) hc
      | cons d rest =>
        have hrest : ∀ e ∈ (d :: rest).getLast?, e = '\n' := fun e he => h e (by simpa using he)
        obtain ⟨line, more, hlines⟩ : ∃ line more, lines (d :: rest) = line :: more := by
          refine List.exists_cons_of_ne_nil ?_
          intro hnil
          have := flatten_lines (d :: rest)
          rw [hnil] at this
          cases this
        have hcons : lines (c :: d :: rest) = (c :: line) :: more := by
          rw [lines, if_neg hc, hlines]
        have hmoved := (ih hrest).2 line more hlines
        refine ⟨?_, ?_⟩
        · rw [hcons, List.flatMap_cons, indentLine_cons hc, moved, if_neg hc, hmoved]
          simp
        · intro line' more' hlines'
          obtain ⟨rfl, rfl⟩ := List.cons.inj (hlines'.symm.trans hcons)
          rw [moved, if_neg hc, hmoved]
          simp [hc]

/-- A shift moves the first line by one width and the others by another. -/
theorem shift_eq (first : Nat) {c : Char} (hc : c ≠ '\n')
    (h : ∀ d ∈ (c :: text).getLast?, d = '\n') :
    shift first right (c :: text) = spaces first ++ moved right false (c :: text) := by
  obtain ⟨line, more, hlines⟩ : ∃ line more, lines (c :: text) = (c :: line) :: more := by
    rw [lines, if_neg hc]
    split
    · exact ⟨[], [], rfl⟩
    · exact ⟨_, _, rfl⟩
  rw [shift, hlines, (moved_lines h).2 _ _ hlines]
  dsimp only
  rw [indentLine_cons hc]
  simp [hc]

end Lines

/-! ### Words -/

section Words

variable {right indent : Nat} {cs after : List Char} {broken : Option Char}

theorem moved_append (h : ∀ c ∈ cs, c ≠ '\n') (after : List Char) :
    moved right false (cs ++ after) = cs ++ moved right false after := by
  induction cs with
  | nil => rfl
  | cons c rest ih =>
    obtain ⟨hc, hrest⟩ := List.forall_mem_cons.1 h
    rw [List.cons_append, moved, if_neg hc, ih hrest]
    rfl

theorem feed_notMem_spaces (n : Nat) : ∀ c ∈ spaces n, c ≠ '\n' := by
  intro c hc
  rw [(List.mem_replicate.1 hc).2]
  decide

/-- At the start of a line the margin is wider. -/
theorem moved_margin (right indent : Nat) {c : Char} (hc : c ≠ '\n') (broken : Option Char)
    (rest : List Char) :
    moved right (decide (broken = some '\n')) (margin 0 indent broken ++ c :: rest) =
      margin right indent broken ++ c :: moved right false rest := by
  have hspaces (n : Nat) : moved right false (spaces n ++ c :: rest) =
      spaces n ++ c :: moved right false rest := by
    rw [moved_append (feed_notMem_spaces n), moved, if_neg hc]
    rfl
  have hstart (n : Nat) : moved right true (spaces n ++ c :: rest) =
      spaces right ++ (spaces n ++ c :: moved right false rest) := by
    rw [← hspaces n]
    cases n with
    | zero => simp [spaces, moved, hc]
    | succ n => simp [spaces, List.replicate_succ, moved]
  cases broken with
  | none => exact hspaces 0
  | some b =>
    by_cases hb : b = '\n'
    · subst hb
      have hwide : spaces (right + indent) = spaces right ++ spaces indent :=
        List.replicate_add ..
      simpa [margin, hwide] using hstart indent
    · simpa [margin, hb] using hspaces indent

/-- A break is moved where it starts a line without being a line feed. -/
theorem moved_drift (c : Char) (broken : Option Char) (rest : List Char) :
    moved right (decide (broken = some '\n')) (c :: rest) =
      drift right broken c ++ c :: moved right (decide (c = '\n')) rest := by
  unfold drift
  rw [moved]
  by_cases hc : c = '\n'
  · simp [hc]
  · by_cases hb : broken = some '\n' <;> simp [hc, hb]

theorem moved_singleText (right indent : Nat) {c : Char} (hc : c ≠ '\n') (rest : List Char)
    (broken : Option Char) (hspaces : anyPair (fun a b => endsLine a && b = ' ') cs = false)
    (hhead : broken.isSome → cs.head? ≠ some ' ') :
    moved right (decide (broken = some '\n')) (singleText 0 indent cs broken ++ c :: rest) =
      singleText right indent cs broken ++ c :: moved right false rest := by
  induction cs generalizing broken with
  | nil => exact moved_margin right indent hc broken rest
  | cons d more ih =>
    rw [anyPair_cons, Bool.or_eq_false_iff] at hspaces
    obtain ⟨hnext, hmore⟩ := hspaces
    unfold singleText
    by_cases hspace : d = ' '
    · have hnone : broken = none := by
        cases broken with
        | none => rfl
        | some b => exact absurd (congrArg some hspace) (hhead rfl)
      subst hnone hspace
      have := ih none hmore (by simp)
      simpa [moved] using this
    · by_cases hends : endsLine d
      · have hhead' : more.head? ≠ some ' ' := by
          intro hhead
          simp [hhead, hends] at hnext
        have := ih (some d) hmore (fun _ => hhead')
        simp only [Option.some.injEq] at this
        simp only [hspace, hends, if_true, if_false, drift_zero, List.nil_append, List.append_assoc,
          List.cons_append]
        by_cases hfirst : broken.isNone && d = '\n'
        · obtain ⟨hnone, hd⟩ := Bool.and_eq_true_iff.1 hfirst
          obtain rfl := Option.isNone_iff_eq_none.1 hnone
          obtain rfl := of_decide_eq_true hd
          simpa [moved, drift] using this
        · simp only [if_neg hfirst, List.nil_append]
          rw [moved_drift, this]
      · simp only [hspace, hends, if_false, Bool.false_eq_true, List.append_assoc]
        have hd : d ≠ '\n' := by
          rintro rfl
          exact hends (by decide)
        have := ih none hmore (by simp)
        by_cases hquote : d = '\''
        · subst hquote
          simp only [if_true, List.cons_append, List.nil_append]
          rw [moved_margin right indent (by decide), moved, if_neg (by decide)]
          simpa using this
        · simp only [hquote, if_false, List.nil_append, List.cons_append]
          rw [moved_margin right indent hd]
          simpa using this

/-- Whether every line of a text starts behind a line feed, or is empty. -/
def breaksAtFeeds : List Char → Bool
  | [] => true
  | c :: rest => (!endsLine c || c = '\n' || rest.head?.any endsLine) && breaksAtFeeds rest

theorem moved_literalText (right indent : Nat) (broken : Option Char) (hfeeds : breaksAtFeeds cs)
    (hbroken : ∀ b ∈ broken, b ≠ '\n' → cs.head?.any endsLine) (after : List Char) :
    let tail := if cs.getLast?.elim broken.isSome endsLine then [] else ['\n']
    moved right (decide (broken = some '\n')) (literalText 0 indent cs broken ++ (tail ++ after)) =
      literalText right indent cs broken ++ (tail ++ moved right true after) := by
  induction cs generalizing broken with
  | nil =>
    cases broken with
    | none => simp [literalText, moved]
    | some b =>
      have hb : b = '\n' := by
        by_contra hne
        exact absurd (hbroken b rfl hne) (by simp)
      simp [literalText, hb]
  | cons c rest ih =>
    obtain ⟨hc, hrest⟩ := Bool.and_eq_true_iff.1 hfeeds
    have hlast {b : Option Char} (hb : b.isSome = endsLine c) :
        (c :: rest).getLast?.elim broken.isSome endsLine =
          rest.getLast?.elim b.isSome endsLine := by
      rw [List.getLast?_cons]
      cases rest.getLast? <;> simp [hb]
    unfold literalText
    by_cases hends : endsLine c
    · have hnext : ∀ b ∈ some c, b ≠ '\n' → rest.head?.any endsLine := by
        intro b hb hne
        obtain rfl := Option.mem_some_iff.1 hb
        simpa [hends, hne] using hc
      have := ih (some c) hrest hnext
      rw [hlast (b := some c) (by simp [hends])]
      simp only [hends, if_true, drift_zero, List.nil_append, List.cons_append, List.append_assoc]
      rw [moved_drift]
      simpa using this
    · have := ih none hrest (by simp)
      have hfeed : c ≠ '\n' := by
        rintro rfl
        exact hends (by decide)
      rw [hlast (b := none) (by simp [hends])]
      simp only [hends, Bool.false_eq_true, if_false, List.append_assoc, List.cons_append]
      rw [moved_margin right indent hfeed]
      simpa using this

end Words

/-! ### Nodes -/

end OperatorBundle.Layout

namespace OperatorBundle.Tree

mutual
/-- The strings of a tree, keys included. -/
def texts : Tree → List String
  | .text s => [s]
  | .sequence items => textsOfItems items
  | .mapping entries => textsOfEntries entries
  | .tagged _ content => texts content
  | _ => []

/-- The strings of items. -/
def textsOfItems : List Tree → List String
  | [] => []
  | item :: more => texts item ++ textsOfItems more

/-- The strings of entries. -/
def textsOfEntries : List (Tree × Tree) → List String
  | [] => []
  | (key, value) :: more => texts key ++ (texts value ++ textsOfEntries more)
end

end OperatorBundle.Tree

namespace OperatorBundle.Layout

open OperatorBundle.Text OperatorBundle.Yaml

/-- Whether a string can be moved: each line of it starts behind a line feed if it is written as a
literal. -/
def isMovable (s : String) : Bool :=
  (Style.ofText s.toList).fit s.toList false ≠ .literal || breaksAtFeeds s.toList

section Nodes

variable {right : Nat} {slot : Slot}

theorem moved_lineEnd (hslot : slot ≠ .shortKey) (after : List Char) :
    moved right false (lineEnd slot ++ after) = lineEnd slot ++ moved right true after := by
  simp [lineEnd, hslot, moved]

theorem ne_feed_of_line {c : Char} (h : endsLine c = false) : c ≠ '\n' := by
  rintro rfl
  exact absurd h (by decide)

/-- A tag stands on one line. -/
theorem line_tagText (pen : Pen) (tag : Option String) :
    ∀ c ∈ pen.tagText tag ++ gapText (pen.behind tag).gap, endsLine c = false := by
  have hgap (gap : Bool) : ∀ c ∈ gapText gap, endsLine c = false := by
    cases gap <;> exact List.all_iff_forall_prop.1 (by decide)
  intro c hc
  rcases List.mem_append.1 hc with hc | hc
  · cases tag with
    | none => cases hc
    | some tag =>
      rcases List.mem_append.1 hc with hc | hc
      · exact hgap _ c hc
      · exact endsLine_of_isGraphic (isGraphic_of_mem_writtenTag hc)
  · exact hgap _ c hc

theorem feed_notMem_tagText (pen : Pen) (tag : Option String) :
    ∀ c ∈ pen.tagText tag ++ gapText (pen.behind tag).gap, c ≠ '\n' :=
  fun c hc => ne_feed_of_line (line_tagText pen tag c hc)

theorem moved_lead (pen : Pen) (column : Nat) {c : Char} (hc : c ≠ '\n') (rest : List Char) :
    moved right false (pen.lead (0 + column) ++ c :: rest) =
      pen.lead (right + column) ++ c :: moved right false rest := by
  unfold Pen.lead
  cases pen.fresh with
  | true => cases hgap : pen.gap <;> simp [gapText, moved, hc]
  | false =>
    have := moved_margin right column hc (some '\n') rest
    simpa [moved, margin] using this

theorem moved_spaces (column : Nat) {c : Char} (hc : c ≠ '\n') (rest : List Char) :
    moved right true (spaces (0 + column) ++ c :: rest) =
      spaces (right + column) ++ c :: moved right false rest := by
  have := moved_margin right column hc (some '\n') rest
  simpa [margin] using this

/-- A text in single quotes on one line. -/
theorem singleText_of_line {indent : Nat} {cs : List Char} (h : ∀ c ∈ cs, endsLine c = false) :
    singleText right indent cs none =
      cs.flatMap fun c => if c = '\'' then ['\'', '\''] else [c] := by
  induction cs with
  | nil => rfl
  | cons c rest ih =>
    obtain ⟨hc, hrest⟩ := List.forall_mem_cons.1 h
    rw [singleText, ih hrest, List.flatMap_cons]
    by_cases hspace : c = ' '
    · simp [hspace]
    · by_cases hquote : c = '\''
      · subst hquote
        simp [show endsLine '\'' = false by decide, margin]
      · simp [hspace, hc, hquote, margin]

/-- A text in double quotes stands on one line. -/
theorem feed_notMem_double (cs : List Char) :
    ∀ c ∈ '"' :: (cs.flatMap Page.doubleChar ++ ['"']), c ≠ '\n' := by
  rintro c hc rfl
  simp only [List.mem_cons, List.mem_append, List.mem_flatMap, List.not_mem_nil, or_false] at hc
  rcases hc with hc | ⟨d, -, hd⟩ | hc
  · cases hc
  · exact absurd (of_mem_doubleChar hd).2 (by decide)
  · cases hc

/-- The header of a literal stands on one line. -/
theorem feed_notMem_literalHeader (cs : List Char) :
    ∀ c ∈ '|' :: Page.literalMarks cs, c ≠ '\n' := by
  intro c hc
  refine ne_of_isGraphic ?_ (by decide)
  rcases List.mem_cons.1 hc with rfl | hc
  · decide
  · exact isGraphic_of_mem_literalMarks hc

/-- Behind a literal a break is written only if the literal does not end with one. -/
theorem wordEnd_literal (hslot : slot ≠ .shortKey) {cs : List Char} (hne : cs ≠ []) :
    wordEnd slot .literal cs =
      if cs.getLast?.elim (some '\n').isSome endsLine then [] else ['\n'] := by
  unfold wordEnd lineEnd
  rw [if_neg hslot, List.getLast?_eq_some_getLast hne]
  by_cases hlast : endsLine (cs.getLast hne) <;> simp [hlast]

theorem moved_wordText (right indent : Nat) {asked style : Style} {cs : List Char}
    (hslot : slot ≠ .shortKey) (hstyle : asked.fit cs false = style)
    (hfeeds : style = .literal → breaksAtFeeds cs) (after : List Char) :
    moved right false (wordText 0 style indent cs ++ (wordEnd slot style cs ++ after)) =
      wordText right style indent cs ++ (wordEnd slot style cs ++ moved right true after) := by
  have hend {style : Style} (hstyle : style ≠ .literal) : wordEnd slot style cs = lineEnd slot := by
    simp [wordEnd, hstyle]
  cases style with
  | plain =>
    rw [hend (by decide)]
    have hcs : ∀ c ∈ cs, c ≠ '\n' := fun c hc =>
      ne_feed_of_line ((of_plain (Style.of_fit_eq_plain hstyle).2.1).2 c hc)
    show moved right false (cs ++ _) = cs ++ _
    rw [moved_append hcs, moved_lineEnd hslot]
  | single =>
    rw [hend (by decide)]
    have hspaces : anyPair (fun a b => endsLine a && b = ' ') cs = false := by
      have := Style.of_fit_eq_single hstyle
      simp only [obstacles, Bool.or_eq_false_iff] at this
      exact this.1.1
    have := moved_singleText right indent (show '\'' ≠ '\n' by decide)
      (lineEnd slot ++ after) none hspaces (by simp)
    rw [moved_lineEnd hslot] at this
    simpa [wordText, moved] using this
  | double =>
    rw [hend (by decide)]
    show moved right false ('"' :: (cs.flatMap Page.doubleChar ++ ['"']) ++ _) =
      '"' :: (cs.flatMap Page.doubleChar ++ ['"']) ++ _
    rw [moved_append (feed_notMem_double cs), moved_lineEnd hslot]
  | literal =>
    have hne : cs ≠ [] := by
      rintro rfl
      exact absurd (Style.of_fit_eq_literal hstyle).2.1 (by decide)
    have hlines := moved_literalText right indent (some '\n') (hfeeds rfl) (by simp) after
    rw [wordEnd_literal hslot hne]
    show moved right false ('|' :: (Page.literalMarks cs ++ '\n' :: _) ++ _) =
      '|' :: (Page.literalMarks cs ++ '\n' :: _) ++ _
    have happend (body rest : List Char) : '|' :: (Page.literalMarks cs ++ '\n' :: body) ++ rest =
        ('|' :: Page.literalMarks cs) ++ '\n' :: (body ++ rest) := by simp
    rw [happend, happend, moved_append (feed_notMem_literalHeader cs), moved, if_pos rfl]
    simpa using hlines

/-- A scalar of one line that is no literal stays on the line and is the same at every margin. -/
theorem wordText_of_line (right indent : Nat) (asked : Style) {cs : List Char}
    (hcs : ∀ c ∈ cs, endsLine c = false) :
    wordText right (asked.fit cs true) indent cs = wordText 0 (asked.fit cs true) indent cs ∧
      ∀ c ∈ wordText 0 (asked.fit cs true) indent cs, endsLine c = false := by
  cases hstyle : asked.fit cs true with
  | plain => exact ⟨rfl, hcs⟩
  | single =>
    simp only [wordText, singleText_of_line hcs, true_and]
    intro c hc
    simp only [List.mem_cons, List.mem_append, List.mem_flatMap, List.not_mem_nil, or_false] at hc
    rcases hc with rfl | ⟨d, hd, hc⟩ | rfl
    · decide
    · split at hc
      · simp only [List.mem_cons, List.not_mem_nil, or_false, or_self] at hc
        rw [hc]
        decide
      · rw [List.mem_singleton.1 hc]
        exact hcs d hd
    · decide
  | double =>
    refine ⟨rfl, ?_⟩
    intro c hc
    simp only [wordText, List.mem_cons, List.mem_append, List.mem_flatMap, List.not_mem_nil,
      or_false] at hc
    rcases hc with rfl | ⟨d, -, hd⟩ | rfl
    · decide
    · exact (of_mem_doubleChar hd).2
    · decide
  | literal => exact absurd (Style.of_fit_eq_literal hstyle).2.2 (by simp)

/-- A key before its colon stands on one line and is the same at every margin. -/
theorem shortKey_text (right : Nat) (indent : Int) (pen : Pen) (tag : Option String) (key : Tree)
    (h : isShortKey tag key) :
    nodeText right indent .shortKey pen tag key = nodeText 0 indent .shortKey pen tag key ∧
      ∀ c ∈ nodeText 0 indent .shortKey pen tag key, endsLine c = false := by
  have hline {cs : List Char} (hcs : ∀ c ∈ cs, endsLine c = false) :
      ∀ c ∈ pen.tagText tag ++ gapText (pen.behind tag).gap ++ cs, endsLine c = false := by
    intro c hc
    rcases List.mem_append.1 hc with hc | hc
    · exact line_tagText pen tag c hc
    · exact hcs c hc
  have hscalar (tree : Tree) {cs : List Char} {style : Style}
      (hform : scalarForm? tree = some (cs, style)) (hcs : !cs.any endsLine) :
      pen.tagText tag ++ gapText (pen.behind tag).gap ++ wordText right (style.fit cs true)
          (scalarIndent indent).toNat cs ++ wordEnd .shortKey (style.fit cs true) cs =
        pen.tagText tag ++ gapText (pen.behind tag).gap ++ wordText 0 (style.fit cs true)
          (scalarIndent indent).toNat cs ++ wordEnd .shortKey (style.fit cs true) cs ∧
      ∀ c ∈ pen.tagText tag ++ gapText (pen.behind tag).gap ++ wordText 0 (style.fit cs true)
          (scalarIndent indent).toNat cs ++ wordEnd .shortKey (style.fit cs true) cs,
        endsLine c = false := by
    obtain ⟨heq, hword⟩ := wordText_of_line right (scalarIndent indent).toNat style
      (show ∀ c ∈ cs, endsLine c = false by simpa using hcs)
    have hend : wordEnd .shortKey (style.fit cs true) cs = [] := by simp [wordEnd, lineEnd]
    rw [heq, hend, List.append_nil]
    exact ⟨rfl, hline hword⟩
  cases key with
  | tagged inner content =>
    rw [nodeText, nodeText]
    exact shortKey_text right indent pen (some inner) content (by simpa [isShortKey] using h)
  | sequence items =>
    have hempty : items.isEmpty := (Bool.and_eq_true_iff.1 h).1
    rw [nodeText, nodeText, if_pos hempty, if_pos hempty]
    refine ⟨rfl, ?_⟩
    simpa [lineEnd] using hline (List.all_iff_forall_prop.1 (by decide : (['[', ']'].all (endsLine · = false))))
  | mapping entries =>
    have hempty : entries.isEmpty := (Bool.and_eq_true_iff.1 h).1
    rw [nodeText, nodeText, if_pos hempty, if_pos hempty]
    refine ⟨rfl, ?_⟩
    simpa [lineEnd] using hline (List.all_iff_forall_prop.1 (by decide : (['\x7b', '\x7d'].all (endsLine · = false))))
  | null => exact hscalar .null rfl (by decide)
  | bool b => exact hscalar (.bool b) rfl (Bool.and_eq_true_iff.1 h).1
  | int n => exact hscalar (.int n) rfl (Bool.and_eq_true_iff.1 h).1
  | float x => exact hscalar (.float x) rfl (Bool.and_eq_true_iff.1 h).1
  | text s => exact hscalar (.text s) rfl (Bool.and_eq_true_iff.1 h).1

/-- A scalar behind its tag. -/
theorem moved_scalar {pen : Pen} {tag : Option String} {asked : Style} {indent : Nat}
    {cs : List Char} (hslot : slot ≠ .shortKey)
    (hfeeds : asked.fit cs false = .literal → breaksAtFeeds cs) (after : List Char) :
    moved right false (pen.tagText tag ++ gapText (pen.behind tag).gap ++
        wordText 0 (asked.fit cs (slot = .shortKey)) indent cs ++
        wordEnd slot (asked.fit cs (slot = .shortKey)) cs ++ after) =
      pen.tagText tag ++ gapText (pen.behind tag).gap ++
        wordText right (asked.fit cs (slot = .shortKey)) indent cs ++
        wordEnd slot (asked.fit cs (slot = .shortKey)) cs ++ moved right true after := by
  have hkey : decide (slot = .shortKey) = false := decide_eq_false hslot
  have := moved_wordText right indent hslot rfl hfeeds after
  rw [hkey, List.append_assoc, List.append_assoc, moved_append (feed_notMem_tagText pen tag), this]
  simp

/-- An empty collection behind its tag. -/
theorem moved_brackets {pen : Pen} {tag : Option String} {cs : List Char}
    (hslot : slot ≠ .shortKey) (hcs : ∀ c ∈ cs, c ≠ '\n') (after : List Char) :
    moved right false (pen.tagText tag ++ gapText (pen.behind tag).gap ++ cs ++ lineEnd slot ++
        after) =
      pen.tagText tag ++ gapText (pen.behind tag).gap ++ cs ++ lineEnd slot ++
        moved right true after := by
  rw [List.append_assoc, List.append_assoc, moved_append (feed_notMem_tagText pen tag),
    moved_append hcs, moved_lineEnd hslot]
  simp

theorem feed_notMem_tag (pen : Pen) (tag : Option String) : ∀ c ∈ pen.tagText tag, c ≠ '\n' :=
  fun c hc => feed_notMem_tagText pen tag c (List.mem_append_left _ hc)

mutual
/-- **A node that is moved** is one with wider margins. -/
theorem moved_nodeText (right : Nat) (indent : Int) (slot : Slot) (pen : Pen)
    (tag : Option String) (tree : Tree)
    (hslot : slot ≠ .shortKey) (htexts : ∀ s ∈ tree.texts, isMovable s) (after : List Char) :
    moved right false (nodeText 0 indent slot pen tag tree ++ after) =
      nodeText right indent slot pen tag tree ++ moved right true after := by
  have hplain (tree : Tree) {cs : List Char} (hform : scalarForm? tree = some (cs, .plain)) :
      Style.plain.fit cs false = .literal → breaksAtFeeds cs := by
    intro h
    exact absurd (Style.of_fit_eq_literal h).1 (by decide)
  cases tree with
  | tagged inner content =>
    rw [nodeText, nodeText]
    exact moved_nodeText right indent slot pen (some inner) content hslot htexts after
  | sequence items =>
    rw [nodeText, nodeText]
    split
    · exact moved_brackets hslot (List.all_iff_forall_prop.1 (by decide)) after
    · rename_i hitems
      dsimp only
      rw [List.append_assoc, List.append_assoc, moved_append (feed_notMem_tag pen tag)]
      congr 1
      exact moved_itemsText right _ items (by simpa using hitems) htexts after (moved_lead _ _)
  | mapping entries =>
    rw [nodeText, nodeText]
    split
    · exact moved_brackets hslot (List.all_iff_forall_prop.1 (by decide)) after
    · rename_i hentries
      dsimp only
      rw [List.append_assoc, List.append_assoc, moved_append (feed_notMem_tag pen tag)]
      congr 1
      exact moved_entriesText right _ entries (by simpa using hentries) htexts after (moved_lead _ _)
  | null => exact moved_scalar hslot (hplain .null rfl) after
  | bool b => exact moved_scalar hslot (hplain (.bool b) rfl) after
  | int n => exact moved_scalar hslot (hplain (.int n) rfl) after
  | float x => exact moved_scalar hslot (hplain (.float x) rfl) after
  | text s =>
    refine moved_scalar hslot ?_ after
    intro hliteral
    have := htexts s (by simp [Tree.texts])
    simpa [isMovable, hliteral] using this

theorem moved_itemsText (right column : Nat) (items : List Tree) (hitems : items ≠ [])
    (htexts : ∀ s ∈ Tree.textsOfItems items, isMovable s) (after : List Char)
    {lead lead' : List Char} {atStart : Bool}
    (hlead : ∀ {c : Char}, c ≠ '\n' → ∀ rest, moved right atStart (lead ++ c :: rest) =
      lead' ++ c :: moved right false rest) :
    moved right atStart (itemsText 0 column lead items ++ after) =
      itemsText right column lead' items ++ moved right true after := by
  cases items with
  | nil => exact absurd rfl hitems
  | cons item more =>
    have hitem := moved_nodeText right column .item ⟨false, true⟩ none item (by decide)
      (fun s hs => htexts s (List.mem_append_left _ hs))
    rw [itemsText, itemsText]
    simp only [List.append_assoc, List.cons_append]
    rw [hlead (by decide), hitem]
    congr 3
    cases more with
    | nil => rfl
    | cons next more =>
      exact moved_itemsText right column (next :: more) (by simp)
        (fun s hs => htexts s (List.mem_append_right _ hs)) after (moved_spaces column)

theorem moved_entriesText (right column : Nat) (entries : List (Tree × Tree))
    (hentries : entries ≠ [])
    (htexts : ∀ s ∈ Tree.textsOfEntries entries, isMovable s) (after : List Char)
    {lead lead' : List Char} {atStart : Bool}
    (hlead : ∀ {c : Char}, c ≠ '\n' → ∀ rest, moved right atStart (lead ++ c :: rest) =
      lead' ++ c :: moved right false rest) :
    moved right atStart (entriesText 0 column lead entries ++ after) =
      entriesText right column lead' entries ++ moved right true after := by
  cases entries with
  | nil => exact absurd rfl hentries
  | cons entry more =>
    obtain ⟨key, value⟩ := entry
    have hvalue (pen : Pen) := moved_nodeText right column .value pen none value (by decide)
      (fun s hs => htexts s (List.mem_append_right _ (List.mem_append_left _ hs)))
    have hmore : moved right true (entriesText 0 column (spaces (0 + column)) more ++ after) =
        entriesText right column (spaces (right + column)) more ++ moved right true after := by
      cases more with
      | nil => rfl
      | cons next more =>
        exact moved_entriesText right column (next :: more) (by simp)
          (fun s hs => htexts s (List.mem_append_right _ (List.mem_append_right _ hs))) after
          (moved_spaces column)
    rw [entriesText, entriesText]
    by_cases hkey : isShortKey none key
    · obtain ⟨hsame, hline⟩ := shortKey_text right column ⟨true, true⟩ none key hkey
      have hopen {text : List Char} (htext : ∀ c ∈ text, c ≠ '\n') (rest : List Char) :
          moved right atStart (lead ++ (text ++ ':' :: rest)) =
            lead' ++ (text ++ ':' :: moved right false rest) := by
        have hcolon : moved right false (':' :: rest) = ':' :: moved right false rest :=
          moved_append (List.forall_mem_singleton.2 (by decide)) rest
        cases text with
        | nil => exact hlead (by decide) rest
        | cons c text =>
          obtain ⟨hc, htext⟩ := List.forall_mem_cons.1 htext
          rw [List.cons_append, hlead hc, moved_append htext, hcolon]
          rfl
      rw [if_pos hkey, if_pos hkey, hsame]
      simp only [List.append_assoc, List.cons_append]
      rw [hopen fun c hc => ne_feed_of_line (hline c hc), hvalue, hmore]
    · rw [if_neg hkey, if_neg hkey]
      have hkeyText := moved_nodeText right column .longKey ⟨false, true⟩ none key (by decide)
        (fun s hs => htexts s (List.mem_append_left _ hs))
      simp only [List.append_assoc, List.cons_append]
      rw [hlead (by decide), hkeyText, moved_spaces column (by decide), hvalue, hmore]
end

end Nodes

/-- A text is moved part by part. -/
theorem moved_append_moved (right : Nat) (atStart : Bool) (text after : List Char) :
    moved right atStart (text ++ after) = moved right atStart text ++
      moved right (text.getLast?.elim atStart (· = '\n')) after := by
  induction text generalizing atStart with
  | nil => rfl
  | cons c rest ih =>
    have hlast (b : Bool) (hb : b = decide (c = '\n')) :
        rest.getLast?.elim b (fun d => decide (d = '\n')) =
          (c :: rest).getLast?.elim atStart (fun d => decide (d = '\n')) := by
      rw [List.getLast?_cons]
      cases rest.getLast? <;> simp [hb]
    rw [List.cons_append, moved, moved]
    by_cases hc : c = '\n'
    · rw [if_pos hc, if_pos hc, ih, hlast true (by simp [hc])]
      rfl
    · rw [if_neg hc, if_neg hc, ih, hlast false (by simp [hc])]
      simp

theorem getLast?_moved {text : List Char} (h : text.getLast? = some '\n') (right : Nat)
    (atStart : Bool) : (moved right atStart text).getLast? = some '\n' := by
  obtain ⟨before, rfl⟩ := List.getLast?_eq_some_iff.1 h
  rw [moved_append_moved]
  simp [moved]

/-- A node that can be moved ends its line with a line feed. -/
theorem getLast?_nodeText (right : Nat) (indent : Int) (slot : Slot) (pen : Pen)
    (tag : Option String) {tree : Tree} (hslot : slot ≠ .shortKey)
    (htexts : ∀ s ∈ tree.texts, isMovable s) :
    (nodeText right indent slot pen tag tree).getLast? = some '\n' := by
  have hmoved (right : Nat) (after : List Char) :=
    moved_nodeText right indent slot pen tag tree hslot htexts after
  have halone (right : Nat) : moved right false (nodeText 0 indent slot pen tag tree) =
      nodeText right indent slot pen tag tree := by
    simpa [moved] using hmoved right []
  have hlast : (nodeText 0 indent slot pen tag tree).getLast? = some '\n' := by
    -- a dash after the node is moved, so it starts a line
    have hdash := hmoved 1 ['-']
    rw [moved_append_moved, halone 1] at hdash
    replace hdash := List.append_cancel_left hdash
    cases hlast : (nodeText 0 indent slot pen tag tree).getLast? with
    | none => simp [hlast, moved, spaces] at hdash
    | some c =>
      by_cases hc : c = '\n'
      · rw [hc]
      · simp [hlast, hc, moved, spaces] at hdash
  rw [← halone right]
  exact getLast?_moved hlast right false

/-- The first line of a text that is moved by a shift of nothing stays. -/
theorem shift_zero {right : Nat} {text : List Char} (hne : text ≠ [])
    (h : ∀ d ∈ text.getLast?, d = '\n') : shift 0 right text = moved right false text := by
  obtain ⟨line, more, hlines⟩ : ∃ line more, lines text = line :: more := by
    refine List.exists_cons_of_ne_nil ?_
    intro hnil
    have := flatten_lines text
    rw [hnil] at this
    exact hne this.symm
  have hfirst : indentLine 0 line = line.filter (· ≠ '\n') ++ ['\n'] := by
    unfold indentLine
    split
    · rename_i hempty
      rw [hempty]
      rfl
    · rfl
  rw [shift, hlines, (moved_lines h).2 line more hlines]
  dsimp only
  rw [hfirst]
  simp

variable {indent : Nat} {key value : Tree} {own : String}

/-- **An entry written anew** is the written form of the entry with wider margins. -/
theorem freshEntryText?_eq (hown : (Tree.mapping [(key, value)]).toYaml = .ok own)
    (htexts : ∀ s ∈ (Tree.mapping [(key, value)]).texts, isMovable s) :
    freshEntryText? indent key value = some (spaces indent ++
      nodeText indent (-1) .root ⟨true, true⟩ none (.mapping [(key, value)])) := by
  have htext := Tree.toList_of_toYaml hown
  obtain ⟨c, rest, hcons, hc⟩ := Tree.exists_cons_of_toYaml_mapping (by simp) hown
  have hlast := getLast?_nodeText 0 (-1) .root ⟨true, true⟩ none (by decide) htexts
  have hmoved := moved_nodeText indent (-1) .root ⟨true, true⟩ none _ (by decide)
    htexts []
  rw [← htext, hcons] at hlast hmoved
  unfold freshEntryText?
  rw [hown]
  dsimp only
  rw [hcons, shift_eq indent hc (fun d hd => Option.some.inj (hd.symm.trans hlast))]
  simpa [moved] using hmoved

/-- **An item written anew** is the written form of the item, with wider margins, behind a dash. -/
theorem freshItemText?_eq (hown : value.toYaml = .ok own)
    (htexts : ∀ s ∈ value.texts, isMovable s) :
    freshItemText? indent value = some (spaces indent ++ '-' :: ' ' ::
      nodeText (indent + 2) (-1) .root ⟨true, true⟩ none value) := by
  have htext := Tree.toList_of_toYaml hown
  have hlast := getLast?_nodeText 0 (-1) .root ⟨true, true⟩ none (by decide) htexts
  have hmoved := moved_nodeText (indent + 2) (-1) .root ⟨true, true⟩ none _ (by decide)
    htexts []
  rw [← htext] at hlast hmoved
  unfold freshItemText?
  rw [hown]
  dsimp only
  rw [shift_zero (Tree.toList_ne_nil_of_toYaml hown)
    (fun d hd => Option.some.inj (hd.symm.trans hlast))]
  simpa [moved] using hmoved

end OperatorBundle.Layout
