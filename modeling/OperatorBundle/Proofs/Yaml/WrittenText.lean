import Mathlib.Data.Nat.Digits.Defs
import OperatorBundle.Proofs.Yaml.WrittenForm
import OperatorBundle.Text.Lines

/-!
The written form of a tree, by recursion on the tree instead of a page under a pen. The text is that
of a writer whose lines, all but the first, stand `right` columns further right; at zero it is the
written form.

* `toList_of_toYaml`: what is written of a tree is `nodeText` of it.
-/

namespace OperatorBundle.Yaml

open OperatorBundle.Text

/-! ### Text by recursion -/

/-- What the next mark has to know of what stands before it: whether a gap was written last, and
whether the line holds nothing but indentation and marks that indent. -/
structure Pen where
  gap : Bool
  fresh : Bool

/-- A gap unless there is one. -/
def gapText (gap : Bool) : List Char := if gap then [] else [' ']

/-- A tag with its mark, or a lone mark between angle brackets. -/
def writtenTag (tag : String) : List Char :=
  match Page.markedTag tag with
  | '!' :: c :: rest => '!' :: (c :: rest).flatMap Page.tagChar
  | cs => '!' :: '<' :: (cs.flatMap Page.tagChar ++ ['>'])

namespace Pen

/-- The tag of a node, if it has one. -/
def tagText (pen : Pen) (tag : Option String) : List Char :=
  tag.elim [] fun tag => gapText pen.gap ++ writtenTag tag

/-- The pen behind the tag of a node. -/
def behind (pen : Pen) (tag : Option String) : Pen := if tag.isSome then ⟨false, false⟩ else pen

/-- What is written before the first item or entry of a collection at a column. -/
def lead (pen : Pen) (column : Nat) : List Char :=
  if pen.fresh then gapText pen.gap else '\n' :: spaces column

end Pen

variable (right : Nat)

/-- The indentation of a line after the break before it. A line after a separator that is no line
feed is no line of its own to those who shift the text. -/
def margin (indent : Nat) : Option Char → List Char
  | none => []
  | some c => spaces (if c = '\n' then right + indent else indent)

/-- What stands before a break: one that is no line feed is moved where it starts a line. -/
def drift (broken : Option Char) (c : Char) : List Char :=
  if broken = some '\n' ∧ c ≠ '\n' then spaces right else []

/-- A text in single quotes, after the break that was written last, if any. -/
def singleText (indent : Nat) : List Char → Option Char → List Char
  | [], broken => margin right indent broken
  | c :: rest, broken =>
    if c = ' ' then c :: singleText indent rest broken
    else if endsLine c then
      (if broken.isNone && c = '\n' then ['\n'] else []) ++ drift right broken c ++
        c :: singleText indent rest (some c)
    else
      margin right indent broken ++ (if c = '\'' then ['\''] else []) ++
        c :: singleText indent rest none

/-- The lines of a literal, after the break that was written last, if any. -/
def literalText (indent : Nat) : List Char → Option Char → List Char
  | [], _ => []
  | c :: rest, broken =>
    if endsLine c then drift right broken c ++ c :: literalText indent rest (some c)
    else margin right indent broken ++ c :: literalText indent rest none

/-- A scalar in a given style. -/
def wordText (style : Style) (indent : Nat) (cs : List Char) : List Char :=
  match style with
  | .plain => cs
  | .single => '\'' :: (singleText right indent cs none ++ ['\''])
  | .double => '"' :: (cs.flatMap Page.doubleChar ++ ['"'])
  | .literal => '|' :: (Page.literalMarks cs ++ '\n' :: literalText right indent cs (some '\n'))

/-- The end of the line of a node. A key before its colon has none. -/
def lineEnd (slot : Slot) : List Char := if slot = .shortKey then [] else ['\n']

/-- The end of the line of a scalar. A literal may have ended it. -/
def wordEnd (slot : Slot) (style : Style) (cs : List Char) : List Char :=
  if style = .literal ∧ cs.getLast?.any endsLine then [] else lineEnd slot

/-- The column of the items of a sequence. -/
def itemColumn (indent : Int) (slot : Slot) (fresh : Bool) : Nat :=
  (if 0 ≤ indent ∧ slot.inMapping ∧ !fresh then indent else deeper indent).toNat

mutual
/-- The text of a node, with the end of its line. -/
def nodeText (indent : Int) (slot : Slot) (pen : Pen) (tag : Option String) : Tree → List Char
  | .tagged inner content => nodeText indent slot pen (some inner) content
  | .sequence items =>
    let behind := pen.behind tag
    if items.isEmpty then
      pen.tagText tag ++ gapText behind.gap ++ ['[', ']'] ++ lineEnd slot
    else
      let column := itemColumn indent slot behind.fresh
      pen.tagText tag ++ itemsText column (behind.lead (right + column)) items
  | .mapping entries =>
    let behind := pen.behind tag
    if entries.isEmpty then
      pen.tagText tag ++ gapText behind.gap ++ ['\x7b', '\x7d'] ++ lineEnd slot
    else
      let column := (deeper indent).toNat
      pen.tagText tag ++ entriesText column (behind.lead (right + column)) entries
  | tree =>
    match scalarForm? tree with
    | some (cs, style) =>
      let style := style.fit cs (slot = .shortKey)
      pen.tagText tag ++ gapText (pen.behind tag).gap ++
        wordText right style (scalarIndent indent).toNat cs ++ wordEnd slot style cs
    | none => []

/-- The text of items, of which the first stands behind a lead. -/
def itemsText (column : Nat) (lead : List Char) : List Tree → List Char
  | [] => []
  | item :: more =>
    lead ++ '-' :: nodeText column .item ⟨false, true⟩ none item ++
      itemsText column (spaces (right + column)) more

/-- The text of entries, of which the first stands behind a lead. -/
def entriesText (column : Nat) (lead : List Char) : List (Tree × Tree) → List Char
  | [] => []
  | (key, value) :: more =>
    let entry :=
      if isShortKey none key then
        nodeText column .shortKey ⟨true, true⟩ none key ++
          ':' :: nodeText column .value ⟨false, false⟩ none value
      else
        '?' :: nodeText column .longKey ⟨false, true⟩ none key ++ spaces (right + column) ++
          ':' :: nodeText column .value ⟨false, true⟩ none value
    lead ++ entry ++ entriesText column (spaces (right + column)) more
end

/-! ### Styles -/

theorem anyPair_cons (p : Char → Char → Bool) (c : Char) (rest : List Char) :
    anyPair p (c :: rest) = (rest.head?.any (p c) || anyPair p rest) := by
  cases rest <;> rfl

namespace Style

variable {style : Style} {cs : List Char} {asKey : Bool}

/-- A scalar is written plainly if that is asked for and nothing stands against it. -/
theorem of_fit_eq_plain (h : style.fit cs asKey = .plain) :
    style = .plain ∧ (obstacles cs).plain = false ∧ (asKey = true → cs ≠ []) := by
  unfold fit at h
  cases style with
  | plain =>
    dsimp only at h
    split_ifs at h with hlines hplain
    simp only [Bool.or_eq_true, not_or, Bool.not_eq_true] at hplain
    refine ⟨rfl, hplain.1, ?_⟩
    rintro rfl rfl
    exact absurd hplain.2 (by simp)
  | single | double | literal =>
    dsimp only at h
    split_ifs at h

theorem of_fit_eq_single (h : style.fit cs asKey = .single) : (obstacles cs).single = false := by
  unfold fit at h
  cases style <;> dsimp only at h <;> split_ifs at h <;> simp_all

theorem of_fit_eq_literal (h : style.fit cs asKey = .literal) :
    style = .literal ∧ (obstacles cs).literal = false ∧ asKey = false := by
  unfold fit at h
  cases style with
  | literal =>
    dsimp only at h
    split_ifs at h
    simp_all
  | plain | single | double =>
    dsimp only at h
    split_ifs at h

end Style

theorem decimalInt_ne_nil (n : Int) : decimalInt n ≠ [] := by
  unfold decimalInt decimal
  split
  · simp
  · exact Nat.toDigits_ne_nil

theorem Layout.finite_ne_nil (style : Number.Double.Layout) (digits : List Char) (exponent : Int) :
    style.finite digits exponent ≠ [] := by
  unfold Number.Double.Layout.finite
  dsimp only
  split_ifs
  · simp
  · simp
  · simp
  · split <;> simp

theorem text_ne_nil (x : Number.Double) : x.text ≠ [] := by
  unfold Number.Double.text
  dsimp only
  split_ifs <;> simp [Layout.finite_ne_nil]

/-- An empty text is no plain scalar, since nothing would be left to read. -/
theorem ne_nil_of_fit_eq_plain {tree : Tree} {cs : List Char} {style : Style} {asKey : Bool}
    (hform : scalarForm? tree = some (cs, style)) (h : style.fit cs asKey = .plain) : cs ≠ [] := by
  obtain ⟨hstyle, -, -⟩ := Style.of_fit_eq_plain h
  cases tree with
  | null => cases hform; decide
  | bool b => cases hform; cases b <;> decide
  | int n => cases hform; exact decimalInt_ne_nil n
  | float x => cases hform; exact text_ne_nil x
  | text s =>
    cases hform
    intro hnil
    rw [hnil] at hstyle
    exact absurd hstyle (by decide)
  | sequence | mapping | tagged => cases hform

/-! ### The page agrees -/

@[simp] theorem drift_zero (broken : Option Char) (c : Char) : drift 0 broken c = [] := by
  unfold drift
  split <;> rfl

namespace Page

variable {page : Page} {indent : Int}

/-- What stands on a page. -/
def written (page : Page) : List Char := page.text.reverse

/-- What stands on a page once its line has ended. -/
def ended (page : Page) : List Char := page.written ++ if page.fresh then [] else ['\n']

/-- The pen on a page. -/
def pen (page : Page) : Pen := ⟨page.gap, page.fresh⟩

/-- A page after a node: on the line of the node or at the start of a line. -/
def Settled (page : Page) : Prop := page.fresh = true → page.gap = true ∧ page.column = 0

/-- The pen comes to a column for the next item or entry, after some text. -/
def Opens (page : Page) (column : Nat) (text : List Char) : Prop :=
  page.indentTo column = ⟨text.reverse, column, true, true⟩

theorem puts_eq (page : Page) (cs : List Char) :
    page.puts cs = { page with text := cs.reverse ++ page.text, column := page.column + cs.length }
      := by
  induction cs generalizing page with
  | nil => rfl
  | cons c rest ih =>
    show (page.put c).puts rest = _
    rw [ih (page.put c)]
    simp [put]
    omega

@[simp] theorem written_puts (page : Page) (cs : List Char) :
    (page.puts cs).written = page.written ++ cs := by
  simp [puts_eq, written]

@[simp] theorem written_put (page : Page) (c : Char) :
    (page.put c).written = page.written ++ [c] := by
  simp [put, written]

@[simp] theorem written_putBreak (page : Page) (c : Char) :
    (page.putBreak c).written = page.written ++ [c] := by
  simp [putBreak, written]

@[simp] theorem written_withGap (page : Page) :
    page.withGap.written = page.written ++ gapText page.gap := by
  unfold withGap gapText
  split <;> simp

@[simp] theorem written_mark (page : Page) (cs : List Char) (indents : Bool) :
    (page.mark cs indents).written = page.written ++ gapText page.gap ++ cs := by
  show (page.withGap.puts cs).written = _
  simp

@[simp] theorem written_close (page : Page) (cs : List Char) :
    (page.close cs).written = page.written ++ cs := written_puts page cs

@[simp] theorem written_afterWord (page : Page) : page.afterWord.written = page.written := rfl

/-- Behind a word a page is on the line of the word. -/
theorem settled_of_not_fresh (h : page.fresh = false) : page.Settled := by
  intro hfresh
  rw [h] at hfresh
  cases hfresh

theorem ended_of_not_fresh (h : page.fresh = false) : page.ended = page.written ++ ['\n'] := by
  simp [ended, h]

/-- A column right of the margin is reached from a new line. -/
theorem written_indentTo_of_zero (hfresh : page.fresh = true) (hcolumn : page.column = 0)
    (hindent : 0 < indent) :
    (page.indentTo indent).written = page.written ++ spaces indent.toNat := by
  have hpositive : 0 < indent.toNat := by omega
  unfold indentTo
  simp [hfresh, hcolumn, puts_eq, written, spaces, hpositive.ne]

theorem opens_of_settled (h : page.Settled) (column : Nat) :
    page.Opens column (page.ended ++ spaces column) := by
  unfold Opens indentTo ended written spaces
  cases hfresh : page.fresh with
  | false => simp [puts_eq, putBreak]
  | true =>
    obtain ⟨hgap, hcolumn⟩ := h hfresh
    simp [puts_eq, hgap, hcolumn]

/-- The pen comes to the first item or entry below a node. On a fresh line only a gap is missing. -/
theorem opens_lead (page : Page) (column : Nat)
    (h : page.fresh = true → page.column + (gapText page.gap).length = column) :
    page.Opens column (page.written ++ page.pen.lead column) := by
  unfold Opens indentTo Pen.lead pen written
  cases hfresh : page.fresh with
  | false => simp [puts_eq, putBreak, spaces]
  | true =>
    have hcolumn := h hfresh
    cases hgap : page.gap <;> rw [hgap] at hcolumn <;> subst hcolumn <;> simp [puts_eq, gapText]

/-! ### Scalars -/

/-- The margin of a line in single quotes, which is written before its first character. -/
theorem written_margin (page : Page) (hindent : 0 < indent) {broken : Option Char}
    (hpage : broken.isSome → page.fresh = true ∧ page.column = 0) :
    (if broken.isSome then page.indentTo indent else page).written =
      page.written ++ margin 0 indent.toNat broken := by
  cases broken with
  | none => simp [margin]
  | some b =>
    obtain ⟨hfresh, hcolumn⟩ := hpage rfl
    simp [margin, written_indentTo_of_zero hfresh hcolumn hindent]

theorem written_singleChars (page : Page) (hindent : 0 < indent) {cs : List Char}
    (broken : Option Char) (hspaces : anyPair (fun a b => endsLine a && b = ' ') cs = false)
    (hhead : broken.isSome → cs.head? ≠ some ' ')
    (hpage : broken.isSome → page.fresh = true ∧ page.column = 0) :
    (singleChars indent cs broken.isSome page).written =
      page.written ++ singleText 0 indent.toNat cs broken := by
  induction cs generalizing page broken with
  | nil =>
    unfold singleChars singleText
    exact written_margin page hindent hpage
  | cons c rest ih =>
    rw [anyPair_cons, Bool.or_eq_false_iff] at hspaces
    obtain ⟨hnext, hrest⟩ := hspaces
    unfold singleChars singleText
    by_cases hspace : c = ' '
    · have hnone : broken = none := by
        cases broken with
        | none => rfl
        | some b => exact absurd (congrArg some hspace) (hhead rfl)
      subst hnone
      simp only [hspace, if_true]
      have := ih (page.put ' ') none hrest (by simp) (by simp)
      simpa using this
    · by_cases hends : endsLine c
      · have hnext : rest.head? ≠ some ' ' := by
          intro hhead
          simp [hhead, hends] at hnext
        simp only [hspace, hends, if_true, if_false]
        set before := if !broken.isSome && c = '\n' then page.putBreak '\n' else page with hbefore
        have := ih { before.putBreak c with fresh := true } (some c) hrest
          (fun _ => hnext) (fun _ => ⟨rfl, rfl⟩)
        refine this.trans ?_
        show (before.putBreak c).written ++ _ = _
        have hwritten : before.written =
            page.written ++ if broken.isNone && c = '\n' then ['\n'] else [] := by
          rw [hbefore]
          cases broken <;> by_cases hc : c = '\n' <;> simp [hc]
        simp [hwritten]
      · simp only [hspace, hends, if_false, Bool.false_eq_true]
        set start := if broken.isSome then page.indentTo indent else page with hstart
        set quoted := if c = '\'' then start.put c else start with hquoted
        have := ih { quoted.put c with fresh := false } none hrest (by simp)
          (by simp)
        refine this.trans ?_
        show (quoted.put c).written ++ _ = _
        have hwritten : quoted.written = page.written ++ margin 0 indent.toNat broken ++
            if c = '\'' then ['\''] else [] := by
          rw [hquoted, ← written_margin page hindent hpage, ← hstart]
          split <;> simp_all
        simp [hwritten]

/-- The lines of a literal, after a line feed or within a line. -/
theorem literalChars_spec (page : Page) (hindent : 0 < indent) (cs : List Char)
    (broken : Option Char) (hgap : page.gap = true) (hfresh : page.fresh = broken.isSome)
    (hcolumn : broken.isSome → page.column = 0) :
    let after := literalChars indent cs broken.isSome page
    after.written = page.written ++ literalText 0 indent.toNat cs broken ∧ after.Settled ∧
      after.fresh = cs.getLast?.elim broken.isSome endsLine := by
  induction cs generalizing page broken with
  | nil =>
    refine ⟨by simp [literalChars, literalText], ?_, hfresh⟩
    intro h
    exact ⟨hgap, hcolumn (hfresh ▸ h)⟩
  | cons c rest ih =>
    have hlast (after : Page) (b : Option Char)
        (h : after.fresh = rest.getLast?.elim b.isSome endsLine) (hb : b.isSome = endsLine c) :
        after.fresh = (c :: rest).getLast?.elim broken.isSome endsLine := by
      rw [h, List.getLast?_cons]
      cases rest.getLast? <;> simp [hb]
    unfold literalChars literalText
    by_cases hends : endsLine c
    · simp only [hends, if_true]
      have := ih { page.putBreak c with fresh := true } (some c) hgap rfl
        (fun _ => rfl)
      refine ⟨this.1.trans ?_, this.2.1, hlast _ _ this.2.2 (by simp [hends])⟩
      show (page.putBreak c).written ++ _ = _
      simp
    · simp only [hends, Bool.false_eq_true, if_false]
      set start := if broken.isSome then page.indentTo indent else page with hstart
      have hstartGap : start.gap = true := by
        rw [hstart]
        split
        · rfl
        · exact hgap
      have hstartText : start.written = page.written ++ margin 0 indent.toNat broken := by
        rw [hstart]
        cases broken with
        | none => simp [margin]
        | some b => simp [margin, written_indentTo_of_zero hfresh (hcolumn rfl) hindent]
      have := ih { start.put c with fresh := false } none hstartGap rfl
        (by simp)
      refine ⟨this.1.trans ?_, this.2.1, hlast _ _ this.2.2 (by simp [hends])⟩
      show (start.put c).written ++ _ = _
      simp [hstartText]

/-- A scalar after a gap. Only a literal may have ended its line. -/
theorem scalar_spec (page : Page) {style : Style} {cs : List Char} (hindent : 0 < indent)
    (hplain : style = .plain → cs ≠ []) (hsingle : style = .single → (obstacles cs).single = false)
    (hliteral : style = .literal → (obstacles cs).literal = false) :
    let after := page.scalar style indent cs
    after.written = page.written ++ gapText page.gap ++ wordText 0 style indent.toNat cs ∧
      after.Settled ∧ after.fresh = (decide (style = .literal) && cs.getLast?.any endsLine) := by
  cases style with
  | plain =>
    have hne : cs.isEmpty = false := by simpa using hplain rfl
    refine ⟨?_, ?_, ?_⟩ <;> simp only [scalar, plain, hne, Bool.false_eq_true, if_false]
    · simp [wordText]
    · exact settled_of_not_fresh rfl
    · rfl
  | single =>
    have hspaces : anyPair (fun a b => endsLine a && b = ' ') cs = false := by
      have := hsingle rfl
      simp only [obstacles, Bool.or_eq_false_iff] at this
      exact this.1.1
    have hchars := written_singleChars (page.mark ['\''] false) hindent none hspaces
      (by simp) (by simp)
    refine ⟨?_, settled_of_not_fresh rfl, rfl⟩
    show ((singleChars indent cs false (page.mark ['\''] false)).close ['\'']).written = _
    rw [written_close]
    refine (congrArg (· ++ ['\'']) hchars).trans ?_
    simp [wordText]
  | double =>
    refine ⟨?_, settled_of_not_fresh rfl, rfl⟩
    show (((page.mark ['"'] false).puts (cs.flatMap doubleChar)).close ['"']).written = _
    simp [wordText]
  | literal =>
    have hne : cs ≠ [] := by
      rintro rfl
      exact absurd (hliteral rfl) (by decide)
    obtain ⟨hwritten, hsettled, hfresh⟩ := literalChars_spec
      { ((page.mark ['|'] false).close (literalMarks cs)).putBreak '\n' with
        gap := true, fresh := true } hindent cs (some '\n') rfl rfl (fun _ => rfl)
    refine ⟨hwritten.trans ?_, hsettled, hfresh.trans ?_⟩
    · show (((page.mark ['|'] false).close (literalMarks cs)).putBreak '\n').written ++ _ = _
      simp [wordText]
    · rw [List.getLast?_eq_some_getLast hne]
      simp

theorem tag_eq (page : Page) (tag : String) :
    (page.tag tag).written = page.written ++ gapText page.gap ++ writtenTag tag ∧
      (page.tag tag).pen = ⟨false, false⟩ := by
  unfold Page.tag writtenTag
  generalize Page.markedTag tag = marked
  split
  · exact ⟨by simp, rfl⟩
  · exact ⟨by simp, rfl⟩

theorem written_writeTag (page : Page) (tag : Option String) :
    (writeTag tag page).written = page.written ++ page.pen.tagText tag := by
  cases tag with
  | none => simp [writeTag, Pen.tagText]
  | some tag => simpa [writeTag, Pen.tagText, pen] using (tag_eq page tag).1

theorem pen_writeTag (page : Page) (tag : Option String) :
    (writeTag tag page).pen = page.pen.behind tag := by
  cases tag with
  | none => rfl
  | some tag => exact (tag_eq page tag).2

end Page

section Nodes

variable {page : Page} {indent : Int} {slot : Slot} {tag : Option String} {text : List Char}

open Page

theorem scalarIndent_pos (indent : Int) : 0 < scalarIndent indent := by
  unfold scalarIndent
  split <;> omega

theorem toNat_deeper (indent : Int) : ((deeper indent).toNat : Int) = deeper indent := by
  unfold deeper
  split <;> omega

theorem itemColumn_eq (indent : Int) (slot : Slot) (fresh : Bool) :
    (itemColumn indent slot fresh : Int) =
      if 0 ≤ indent ∧ slot.inMapping ∧ !fresh then indent else deeper indent := by
  unfold itemColumn
  split
  · omega
  · exact toNat_deeper indent

theorem toNat_deeper_natCast (column : Nat) : (deeper column).toNat = column + 2 := by
  unfold deeper
  split <;> omega

/-- A scalar behind its tag. -/
theorem scalar_behind_tag (indent : Int) (tag : Option String) (asKey : Bool) {tree : Tree}
    {cs : List Char} {style : Style} (page : Page) (hform : scalarForm? tree = some (cs, style)) :
    let style := style.fit cs asKey
    let after := (writeTag tag page).scalar style (scalarIndent indent) cs
    after.written = page.written ++ (page.pen.tagText tag ++ gapText (page.pen.behind tag).gap ++
        wordText 0 style (scalarIndent indent).toNat cs) ∧
      after.Settled ∧ after.fresh = (decide (style = .literal) && cs.getLast?.any endsLine) := by
  obtain ⟨hwritten, hafter⟩ := scalar_spec (writeTag tag page) (scalarIndent_pos indent)
    (ne_nil_of_fit_eq_plain hform) Style.of_fit_eq_single
    (fun h => (Style.of_fit_eq_literal h).2.1)
  refine ⟨?_, hafter⟩
  rw [hwritten, written_writeTag, ← pen_writeTag]
  simp [pen]

theorem ended_of_scalar (tree : Tree) {cs : List Char} {style : Style} (hslot : slot ≠ .shortKey)
    (hform : scalarForm? tree = some (cs, style)) :
    let style := style.fit cs (slot = .shortKey)
    let after := (writeTag tag page).scalar style (scalarIndent indent) cs
    after.Settled ∧ after.ended = page.written ++ (page.pen.tagText tag ++
      gapText (page.pen.behind tag).gap ++ wordText 0 style (scalarIndent indent).toNat cs ++
      wordEnd slot style cs) := by
  obtain ⟨hwritten, hsettled, hfresh⟩ := scalar_behind_tag indent tag (slot = .shortKey) page
    hform
  refine ⟨hsettled, ?_⟩
  unfold ended wordEnd lineEnd
  rw [hwritten, hfresh, if_neg hslot]
  simp only [Bool.and_eq_true, decide_eq_true_eq]
  split <;> simp

/-- An empty collection behind its tag. -/
theorem ended_of_brackets (page : Page) (hslot : slot ≠ .shortKey) (cs : List Char) :
    let after := ((writeTag tag page).withGap.puts cs).afterWord
    after.Settled ∧ after.ended = page.written ++ (page.pen.tagText tag ++
      gapText (page.pen.behind tag).gap ++ cs ++ lineEnd slot) := by
  refine ⟨settled_of_not_fresh rfl, ?_⟩
  rw [ended_of_not_fresh rfl, ← pen_writeTag]
  simp [written_writeTag, lineEnd, hslot, pen]

/-- A key that stands before its colon. -/
theorem written_shortKey (indent : Int) (tag : Option String) (key : Tree) (page : Page)
    (h : isShortKey tag key) : (writeNode indent .shortKey tag key page).written =
      page.written ++ nodeText 0 indent .shortKey page.pen tag key := by
  have hbrackets (cs : List Char) :
      (((writeTag tag page).withGap.puts cs).afterWord).written = page.written ++
        (page.pen.tagText tag ++ gapText (page.pen.behind tag).gap ++ cs ++ lineEnd .shortKey) := by
    rw [← pen_writeTag]
    simp [written_writeTag, lineEnd, pen]
  have hscalar (tree : Tree) {cs : List Char} {style : Style}
      (hform : scalarForm? tree = some (cs, style)) :
      ((writeTag tag page).scalar (style.fit cs true) (scalarIndent indent) cs).written =
        page.written ++ (page.pen.tagText tag ++ gapText (page.pen.behind tag).gap ++
          wordText 0 (style.fit cs true) (scalarIndent indent).toNat cs ++
          wordEnd .shortKey (style.fit cs true) cs) := by
    rw [(scalar_behind_tag indent tag true page hform).1]
    simp [wordEnd, lineEnd]
  cases key with
  | tagged inner content =>
    rw [writeNode, nodeText]
    exact written_shortKey indent (some inner) content page (by simpa [isShortKey] using h)
  | sequence items =>
    have hempty : items.isEmpty := (Bool.and_eq_true_iff.1 h).1
    rw [writeNode, nodeText, if_pos hempty, if_pos hempty]
    exact hbrackets ['[', ']']
  | mapping entries =>
    have hempty : entries.isEmpty := (Bool.and_eq_true_iff.1 h).1
    rw [writeNode, nodeText, if_pos hempty, if_pos hempty]
    exact hbrackets ['\x7b', '\x7d']
  | null => exact hscalar .null rfl
  | bool b => exact hscalar (.bool b) rfl
  | int n => exact hscalar (.int n) rfl
  | float x => exact hscalar (.float x) rfl
  | text s => exact hscalar (.text s) rfl

mutual
theorem writeNode_spec (indent : Int) (slot : Slot) (tag : Option String) (tree : Tree)
    (page : Page) (hslot : slot ≠ .shortKey)
    (hpage : page.fresh = true →
      page.column + (gapText page.gap).length = (deeper indent).toNat) :
    (writeNode indent slot tag tree page).Settled ∧
      (writeNode indent slot tag tree page).ended =
        page.written ++ nodeText 0 indent slot page.pen tag tree := by
  have hbehind : (writeTag tag page).fresh = true → (writeTag tag page).column +
      (gapText (writeTag tag page).gap).length = (deeper indent).toNat := by
    cases tag with
    | none => exact hpage
    | some tag =>
      intro hfresh
      have := congrArg Pen.fresh (pen_writeTag page (some tag))
      exact absurd (hfresh.symm.trans this) (by simp [Pen.behind])
  have hpen : (writeTag tag page).fresh = (page.pen.behind tag).fresh :=
    congrArg Pen.fresh (pen_writeTag page tag)
  cases tree with
  | tagged inner content =>
    rw [writeNode, nodeText]
    exact writeNode_spec indent slot (some inner) content page hslot hpage
  | sequence items =>
    rw [writeNode, nodeText]
    by_cases hitems : items.isEmpty
    · rw [if_pos hitems, if_pos hitems]
      exact ended_of_brackets page hslot ['[', ']']
    · rw [if_neg hitems, if_neg hitems, hpen, ← itemColumn_eq]
      dsimp only
      rw [Nat.zero_add]
      have hopens := opens_lead (writeTag tag page)
        (itemColumn indent slot (page.pen.behind tag).fresh) (by
          intro hfresh
          rw [hbehind hfresh, ← hpen, hfresh, itemColumn]
          simp)
      rw [pen_writeTag] at hopens
      have := writeItems_spec _ items _ hopens (by simpa using hitems)
      simpa [written_writeTag] using this
  | mapping entries =>
    rw [writeNode, nodeText]
    by_cases hentries : entries.isEmpty
    · rw [if_pos hentries, if_pos hentries]
      exact ended_of_brackets page hslot ['\x7b', '\x7d']
    · rw [if_neg hentries, if_neg hentries, ← toNat_deeper indent]
      dsimp only
      rw [Int.toNat_natCast, Nat.zero_add]
      have hopens := opens_lead (writeTag tag page) _ hbehind
      rw [pen_writeTag] at hopens
      have := writeEntries_spec _ entries _ hopens (by simpa using hentries)
      simpa [written_writeTag] using this
  | null => exact ended_of_scalar .null hslot rfl
  | bool b => exact ended_of_scalar (.bool b) hslot rfl
  | int n => exact ended_of_scalar (.int n) hslot rfl
  | float x => exact ended_of_scalar (.float x) hslot rfl
  | text s => exact ended_of_scalar (.text s) hslot rfl

theorem writeItems_spec (column : Nat) (items : List Tree) (page : Page) {text lead : List Char}
    (hpage : page.Opens column (text ++ lead)) (hitems : items ≠ []) :
    (writeItems column items page).Settled ∧
      (writeItems column items page).ended = text ++ itemsText 0 column lead items := by
  cases items with
  | nil => exact absurd rfl hitems
  | cons item more =>
    rw [writeItems, itemsText, Nat.zero_add]
    set dash := (page.indentTo column).mark ['-'] true with hdash
    have hdash : dash = ⟨'-' :: (text ++ lead).reverse, column + 1, false, true⟩ := by
      rw [hdash, hpage]
      rfl
    obtain ⟨hsettled, hended⟩ := writeNode_spec column .item none item dash (by decide) (by
      rw [hdash, toNat_deeper_natCast]
      simp [gapText])
    have htext : (writeNode column .item none item dash).ended =
        text ++ (lead ++ '-' :: nodeText 0 column .item ⟨false, true⟩ none item) := by
      rw [hended, hdash]
      simp [written, pen]
    cases more with
    | nil => exact ⟨hsettled, by simpa [writeItems, itemsText] using htext⟩
    | cons next more =>
      have := writeItems_spec column (next :: more) _ (opens_of_settled hsettled column) (by simp)
      rw [htext] at this
      simpa using this

theorem writeEntries_spec (column : Nat) (entries : List (Tree × Tree)) (page : Page)
    {text lead : List Char} (hpage : page.Opens column (text ++ lead)) (hentries : entries ≠ []) :
    (writeEntries column entries page).Settled ∧
      (writeEntries column entries page).ended = text ++ entriesText 0 column lead entries := by
  cases entries with
  | nil => exact absurd rfl hentries
  | cons entry more =>
    obtain ⟨key, value⟩ := entry
    rw [writeEntries, entriesText]
    dsimp only
    rw [hpage, Nat.zero_add]
    -- the value stands behind a colon, whichever way the key is written
    have hvalue {colon : Page} {entry : List Char} {fresh : Bool}
        (hpen : colon.pen = ⟨false, fresh⟩) (hwritten : colon.written = text ++ lead ++ entry)
        (hcolumn : fresh = true → colon.column = column + 1) :
        (writeEntries column more (writeNode column .value none value colon)).Settled ∧
          (writeEntries column more (writeNode column .value none value colon)).ended =
            text ++ (lead ++ (entry ++ nodeText 0 column .value ⟨false, fresh⟩ none value) ++
              entriesText 0 column (spaces column) more) := by
      obtain ⟨hgap, hfresh⟩ := Pen.mk.inj hpen
      obtain ⟨hsettled, hended⟩ := writeNode_spec column .value none value colon (by decide) (by
        intro h
        rw [hcolumn (hfresh ▸ h), hgap, toNat_deeper_natCast]
        simp [gapText])
      rw [hwritten, hpen] at hended
      cases more with
      | nil => exact ⟨hsettled, by simpa [writeEntries, entriesText] using hended⟩
      | cons next more =>
        have := writeEntries_spec column (next :: more) _ (opens_of_settled hsettled column)
          (by simp)
        rw [hended] at this
        simpa using this
    by_cases hkey : isShortKey none key
    · rw [if_pos hkey, if_pos hkey]
      set start : Page := ⟨(text ++ lead).reverse, column, true, true⟩ with hstart
      have hwritten : ((writeNode column .shortKey none key start).close [':']).written =
          text ++ lead ++ (nodeText 0 column .shortKey ⟨true, true⟩ none key ++ [':']) := by
        rw [written_close, written_shortKey column none key start hkey, hstart]
        simp [written, pen]
      simpa using hvalue (show _ = Pen.mk false false from rfl) hwritten (by intro h; cases h)
    · rw [if_neg hkey, if_neg hkey]
      set mark : Page := (⟨(text ++ lead).reverse, column, true, true⟩ : Page).mark ['?'] true
        with hmark
      have heq : mark = ⟨'?' :: (text ++ lead).reverse, column + 1, false, true⟩ := rfl
      obtain ⟨hsettled, hended⟩ := writeNode_spec column .longKey none key mark (by decide) (by
        rw [heq, toNat_deeper_natCast]
        simp [gapText])
      have hopens := opens_of_settled hsettled column
      have hwritten : (((writeNode column .longKey none key mark).indentTo column).mark [':']
          true).written = text ++ lead ++ ('?' :: nodeText 0 column .longKey ⟨false, true⟩ none key ++
            spaces column ++ [':']) := by
        rw [hopens, written_mark, hended, heq]
        simp [written, pen, gapText]
      have hpen : (((writeNode column .longKey none key mark).indentTo column).mark [':']
          true).pen = ⟨false, true⟩ := by
        rw [hopens]
        rfl
      have hcolumn : (((writeNode column .longKey none key mark).indentTo column).mark [':']
          true).column = column + 1 := by
        rw [hopens]
        rfl
      simpa using hvalue hpen hwritten (fun _ => hcolumn)
end

end Nodes

end OperatorBundle.Yaml

namespace OperatorBundle.Tree

open OperatorBundle.Yaml

/-- **What is written of a tree** is its text by recursion. -/
theorem toList_of_toYaml {tree : Tree} {text : String} (h : tree.toYaml = .ok text) :
    text.toList = nodeText 0 (-1) .root ⟨true, true⟩ none tree := by
  obtain ⟨hsettled, hended⟩ := writeNode_spec (-1) .root none tree .empty (by decide) (fun _ => rfl)
  have hopens := Page.opens_of_settled hsettled 0
  rw [toYaml_eq_ok h]
  refine (congrArg Page.written hopens).trans ?_
  rw [hended]
  simp [Page.written, Text.spaces, Page.empty, Page.pen]

end OperatorBundle.Tree
