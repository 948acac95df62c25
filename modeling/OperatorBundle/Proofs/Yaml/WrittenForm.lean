import Mathlib.Data.List.Basic
import Mathlib.Tactic.Common
import OperatorBundle.Yaml.Writer

/-!
The first character of a written form. A page only grows, so what is written first stays first:
every written form has a character, and that of a mapping does not start with a line feed.
-/

namespace OperatorBundle.Yaml

open OperatorBundle.Text

namespace Page

/-- A later page holds all that an earlier one does. The characters stand latest first. -/
def Extends (page later : Page) : Prop := page.text <:+ later.text

@[refl] theorem Extends.refl (page : Page) : Extends page page := List.suffix_refl _

theorem Extends.trans {p q r : Page} (hpq : Extends p q) (hqr : Extends q r) : Extends p r :=
  List.IsSuffix.trans hpq hqr

/-- What is written first stays first. -/
theorem Extends.getLast? {p q : Page} (h : Extends p q) {c : Char} (hc : p.text.getLast? = some c) :
    q.text.getLast? = some c := by
  obtain ⟨more, hmore⟩ := h
  rw [← hmore, List.getLast?_append, hc, Option.some_or]

section Strokes

variable (page : Page)

theorem extends_put (c : Char) : Extends page (page.put c) := List.suffix_cons _ _

theorem extends_putBreak (c : Char) : Extends page (page.putBreak c) := List.suffix_cons _ _

theorem extends_puts (cs : List Char) : Extends page (page.puts cs) := by
  induction cs generalizing page with
  | nil => exact Extends.refl page
  | cons c rest ih => exact (extends_put page c).trans (ih (page.put c))

theorem extends_withGap : Extends page page.withGap := by
  unfold withGap
  split
  · exact Extends.refl page
  · exact extends_put page ' '

theorem extends_mark (cs : List Char) (indents : Bool) : Extends page (page.mark cs indents) :=
  (extends_withGap page).trans (extends_puts page.withGap cs)

theorem extends_close (cs : List Char) : Extends page (page.close cs) := extends_puts page cs

theorem extends_indentTo (indent : Int) : Extends page (page.indentTo indent) := by
  unfold indentTo
  dsimp only
  split
  · exact (extends_putBreak page '\n').trans (extends_puts _ _)
  · exact extends_puts page _

theorem extends_plain (cs : List Char) : Extends page (page.plain cs) := by
  unfold plain
  split
  · exact Extends.refl page
  · exact (extends_withGap page).trans (extends_puts _ cs)

theorem extends_singleChars (indent : Int) (cs : List Char) (broken : Bool) :
    Extends page (singleChars indent cs broken page) := by
  induction cs generalizing broken page with
  | nil =>
    unfold singleChars
    split
    · exact extends_indentTo page indent
    · exact Extends.refl page
  | cons c rest ih =>
    unfold singleChars
    dsimp only
    split_ifs <;> refine Extends.trans ?_ (ih _ _)
    · exact extends_put page c
    · exact (extends_putBreak page '\n').trans (extends_putBreak _ c)
    · exact extends_putBreak page c
    · exact ((extends_indentTo page indent).trans (extends_put _ c)).trans (extends_put _ c)
    · exact (extends_put page c).trans (extends_put _ c)
    · exact (extends_indentTo page indent).trans (extends_put _ c)
    · exact extends_put page c

theorem extends_single (indent : Int) (cs : List Char) : Extends page (page.single indent cs) :=
  ((extends_mark page _ _).trans (extends_singleChars _ indent cs false)).trans (extends_close _ _)

theorem extends_double (cs : List Char) : Extends page (page.double cs) :=
  ((extends_mark page _ _).trans (extends_puts _ _)).trans (extends_close _ _)

theorem extends_literalChars (indent : Int) (cs : List Char) (broken : Bool) :
    Extends page (literalChars indent cs broken page) := by
  induction cs generalizing broken page with
  | nil => exact Extends.refl page
  | cons c rest ih =>
    unfold literalChars
    dsimp only
    split_ifs <;> refine Extends.trans ?_ (ih _ _)
    · exact extends_putBreak page c
    · exact (extends_indentTo page indent).trans (extends_put _ c)
    · exact extends_put page c

theorem extends_literal (indent : Int) (cs : List Char) :
    Extends page (page.literal indent cs) := by
  refine Extends.trans ?_ (extends_literalChars _ indent cs true)
  exact ((extends_mark page _ _).trans (extends_close _ _)).trans (extends_putBreak _ '\n')

theorem extends_scalar (style : Style) (indent : Int) (cs : List Char) :
    Extends page (page.scalar style indent cs) := by
  cases style with
  | plain => exact extends_plain page cs
  | single => exact extends_single page indent cs
  | double => exact extends_double page cs
  | literal => exact extends_literal page indent cs

theorem extends_tag (tag : String) : Extends page (page.tag tag) := by
  unfold Page.tag
  split
  · exact ((extends_withGap page).trans (extends_put _ '!')).trans (extends_close _ _)
  · exact (extends_mark page _ _).trans (extends_close _ _)

theorem extends_writeTag (tag : Option String) : Extends page (writeTag tag page) := by
  cases tag with
  | none => exact Extends.refl page
  | some tag => exact extends_tag page tag

end Strokes

end Page

open Page

mutual
theorem extends_writeNode (indent : Int) (slot : Slot) (tag : Option String) (tree : Tree)
    (page : Page) : Extends page (writeNode indent slot tag tree page) := by
  cases tree with
  | tagged inner content => exact extends_writeNode indent slot (some inner) content page
  | sequence items =>
    rw [writeNode]
    refine (extends_writeTag page tag).trans ?_
    split
    · exact (extends_withGap _).trans (extends_puts _ _)
    · exact extends_writeItems _ items _
  | mapping entries =>
    rw [writeNode]
    refine (extends_writeTag page tag).trans ?_
    split
    · exact (extends_withGap _).trans (extends_puts _ _)
    · exact extends_writeEntries _ entries _
  | null | bool _ | int _ | float _ | text _ =>
    exact (extends_writeTag page tag).trans (extends_scalar _ _ _ _)

theorem extends_writeItems (indent : Int) (items : List Tree) (page : Page) :
    Extends page (writeItems indent items page) := by
  cases items with
  | nil => exact Extends.refl page
  | cons item more =>
    rw [writeItems]
    exact ((extends_indentTo page indent).trans (extends_mark _ _ _)).trans
      ((extends_writeNode indent .item none item _).trans (extends_writeItems indent more _))

theorem extends_writeEntries (indent : Int) (entries : List (Tree × Tree)) (page : Page) :
    Extends page (writeEntries indent entries page) := by
  cases entries with
  | nil => exact Extends.refl page
  | cons entry more =>
    obtain ⟨key, value⟩ := entry
    rw [writeEntries]
    refine .trans ?_ (extends_writeEntries indent more _)
    refine .trans ?_ (extends_writeNode indent .value none value _)
    refine (extends_indentTo page indent).trans ?_
    split
    · exact (extends_writeNode indent .shortKey none key _).trans (extends_close _ _)
    · exact ((extends_mark _ _ _).trans (extends_writeNode indent .longKey none key _)).trans
        ((extends_indentTo _ _).trans (extends_mark _ _ _))
end

/-! ### The first character -/

namespace Page

/-- A page whose first character is no line feed. -/
def Started (page : Page) : Prop := ∃ c, page.text.getLast? = some c ∧ c ≠ '\n'

theorem Started.of_extends {p q : Page} (h : p.Started) (hpq : Extends p q) : q.Started := by
  obtain ⟨c, hc, hne⟩ := h
  exact ⟨c, hpq.getLast? hc, hne⟩

theorem started_puts {page : Page} (htext : page.text = []) {c : Char} (hc : c ≠ '\n')
    (rest : List Char) : (page.puts (c :: rest)).Started := by
  refine Started.of_extends (p := page.put c) ⟨c, ?_, hc⟩ (extends_puts _ rest)
  simp [put, htext]

section Blank

variable {page : Page} (htext : page.text = []) (hgap : page.gap = true)

include htext hgap

theorem started_mark {c : Char} (hc : c ≠ '\n') (rest : List Char) (indents : Bool) :
    (page.mark (c :: rest) indents).Started := by
  have h : page.withGap = page := if_pos hgap
  have := started_puts htext hc rest
  rwa [mark, h]

theorem started_tag (tag : String) : (page.tag tag).Started := by
  have h : page.withGap = page := if_pos hgap
  unfold Page.tag
  split
  · refine Started.of_extends ?_ (extends_close _ _)
    rw [h]
    exact started_puts htext (by decide) []
  · exact (started_mark htext hgap (by decide) _ _).of_extends (extends_close _ _)

theorem started_plain {cs : List Char} (hcs : cs ≠ []) (hlines : cs.any endsLine = false) :
    (page.plain cs).Started := by
  have h : page.withGap = page := if_pos hgap
  obtain ⟨c, rest, rfl⟩ := List.exists_cons_of_ne_nil hcs
  have hc : c ≠ '\n' := by
    rintro rfl
    simp [endsLine, isBreak] at hlines
  rw [plain, if_neg (by simp), h]
  exact started_puts htext hc rest

theorem started_scalar (style : Style) (indent : Int) {cs : List Char}
    (hplain : style = .plain → cs ≠ [] ∧ cs.any endsLine = false) :
    (page.scalar style indent cs).Started := by
  cases style with
  | plain => exact started_plain htext hgap (hplain rfl).1 (hplain rfl).2
  | single =>
    exact (started_mark htext hgap (by decide) [] false).of_extends
      ((extends_singleChars _ indent cs false).trans (extends_close _ _))
  | double =>
    exact (started_mark htext hgap (by decide) [] false).of_extends
      ((extends_puts _ _).trans (extends_close _ _))
  | literal =>
    refine (started_mark htext hgap (c := '|') (by decide) [] false).of_extends ?_
    refine Extends.trans ?_ (extends_literalChars _ indent cs true)
    exact (extends_close _ _).trans (extends_putBreak _ '\n')

end Blank

end Page

/-- A scalar that is written plainly has one line; as a key it is not empty either. -/
theorem Style.fit_eq_plain {style : Style} {cs : List Char} {asKey : Bool}
    (h : style.fit cs asKey = .plain) :
    (asKey = true → cs ≠ []) ∧ cs.any endsLine = false := by
  have hquotes : (if (obstacles cs).single then Style.double else .single) ≠ .plain := by
    split <;> simp
  unfold Style.fit at h
  dsimp only at h
  split at h
  · cases h
  · split at h
    · split at h
      · exact absurd h hquotes
      · rename_i hfree
        simp only [obstacles, Bool.or_eq_true, Bool.and_eq_true, not_or, not_and,
          Bool.not_eq_true] at hfree
        exact ⟨fun hkey hcs => by simp_all, hfree.1.1.1.1.1.2⟩
    · exact absurd h hquotes
    · split at h <;> cases h
    · cases h

section Blank

variable {page : Page} (htext : page.text = []) (hgap : page.gap = true)

include htext hgap

/-- A bracket after a tag, if there is one. -/
theorem started_brackets (tag : Option String) {c : Char} (hc : c ≠ '\n') (rest : List Char) :
    ((writeTag tag page).withGap.puts (c :: rest)).Started := by
  cases tag with
  | none => exact started_mark htext hgap hc rest false
  | some tag =>
    exact (started_tag htext hgap tag).of_extends ((extends_withGap _).trans (extends_puts _ _))

/-- A scalar after a tag, if there is one. -/
theorem started_taggedScalar (tag : Option String) (style : Style) (indent : Int) {cs : List Char} :
    ((writeTag tag page).scalar (style.fit cs true) indent cs).Started := by
  cases tag with
  | none =>
    refine started_scalar htext hgap _ _ ?_
    intro h
    exact ⟨(Style.fit_eq_plain h).1 rfl, (Style.fit_eq_plain h).2⟩
  | some tag => exact (started_tag htext hgap tag).of_extends (extends_scalar _ _ _ _)

/-- A key that stands before its colon. -/
theorem started_shortKey (indent : Int) (tag : Option String) (key : Tree)
    (h : isShortKey tag key) : (writeNode indent .shortKey tag key page).Started := by
  cases key with
  | tagged inner content =>
    rw [writeNode]
    exact started_shortKey indent (some inner) content (by simpa [isShortKey] using h)
  | sequence items =>
    have hempty : items.isEmpty := (Bool.and_eq_true_iff.1 h).1
    rw [writeNode, if_pos hempty]
    exact started_brackets htext hgap tag (by decide) _
  | mapping entries =>
    have hempty : entries.isEmpty := (Bool.and_eq_true_iff.1 h).1
    rw [writeNode, if_pos hempty]
    exact started_brackets htext hgap tag (by decide) _
  | null | bool _ | int _ | float _ | text _ => exact started_taggedScalar htext hgap tag _ _

/-- A node behind a tag. -/
theorem started_underTag (indent : Int) (slot : Slot) (tag : String) (tree : Tree) :
    (writeNode indent slot (some tag) tree page).Started := by
  have htag : (writeTag (some tag) page).Started := started_tag htext hgap tag
  cases tree with
  | tagged inner content =>
    rw [writeNode]
    exact started_underTag indent slot inner content
  | sequence items =>
    rw [writeNode]
    refine htag.of_extends ?_
    split
    · exact (extends_withGap _).trans (extends_puts _ _)
    · exact extends_writeItems _ items _
  | mapping entries =>
    rw [writeNode]
    refine htag.of_extends ?_
    split
    · exact (extends_withGap _).trans (extends_puts _ _)
    · exact extends_writeEntries _ entries _
  | null | bool _ | int _ | float _ | text _ => exact htag.of_extends (extends_scalar _ _ _ _)

end Blank

/-- At the left margin of an empty page nothing has to be written to get there. -/
theorem indentTo_zero_empty : Page.empty.indentTo 0 = Page.empty := rfl

theorem Page.Started.text_ne_nil {page : Page} (h : page.Started) : page.text ≠ [] := by
  obtain ⟨c, hc, -⟩ := h
  intro hnil
  simp [hnil] at hc

theorem indentTo_ne_nil_of_not_fresh {page : Page} (h : page.fresh = false) (indent : Int) :
    (page.indentTo indent).text ≠ [] := by
  unfold indentTo
  simp only [h, Bool.not_false, Bool.true_or, if_true]
  obtain ⟨more, hmore⟩ := extends_puts (page.putBreak '\n')
    (List.replicate (indent.toNat - (page.putBreak '\n').column) ' ')
  intro hnil
  rw [hnil] at hmore
  simp [putBreak] at hmore

/-- A scalar leaves something on the page, or a line to be ended. -/
theorem indentTo_scalar_ne_nil (style : Style) (indent : Int) (cs : List Char) :
    ((Page.empty.scalar style indent cs).indentTo 0).text ≠ [] := by
  cases style with
  | plain =>
    refine indentTo_ne_nil_of_not_fresh ?_ 0
    simp only [scalar, plain]
    split <;> rfl
  | single => exact indentTo_ne_nil_of_not_fresh rfl 0
  | double => exact indentTo_ne_nil_of_not_fresh rfl 0
  | literal =>
    have h : (Page.empty.scalar .literal indent cs).Started :=
      started_scalar rfl rfl .literal indent (by simp)
    exact (h.of_extends (extends_indentTo _ 0)).text_ne_nil

/-- The first entry of a mapping at the left margin. -/
theorem started_writeEntries {entries : List Entry} (hentries : entries ≠ []) :
    (writeEntries 0 entries .empty).Started := by
  obtain ⟨⟨key, value⟩, more, rfl⟩ := List.exists_cons_of_ne_nil hentries
  rw [writeEntries]
  dsimp only
  rw [indentTo_zero_empty]
  refine Started.of_extends ?_ (extends_writeEntries 0 more _)
  refine Started.of_extends ?_ (extends_writeNode 0 .value none value _)
  split
  · rename_i hshort
    exact (started_shortKey rfl rfl 0 none key hshort).of_extends (extends_close _ _)
  · have hmark : (Page.empty.mark ['?'] true).Started := started_mark rfl rfl (by decide) [] true
    refine hmark.of_extends ?_
    exact (extends_writeNode 0 .longKey none key _).trans
      ((extends_indentTo _ _).trans (extends_mark _ _ _))

/-- The first item of a sequence at the left margin. -/
theorem started_writeItems {items : List Tree} (hitems : items ≠ []) :
    (writeItems 0 items .empty).Started := by
  obtain ⟨item, more, rfl⟩ := List.exists_cons_of_ne_nil hitems
  rw [writeItems, indentTo_zero_empty]
  have hmark : (Page.empty.mark ['-'] true).Started := started_mark rfl rfl (by decide) [] true
  refine hmark.of_extends ?_
  exact (extends_writeNode 0 .item none item _).trans (extends_writeItems 0 more _)

end OperatorBundle.Yaml

namespace OperatorBundle.Tree

open OperatorBundle.Yaml OperatorBundle.Yaml.Page

theorem toYaml_eq_ok {tree : Tree} {text : String} (h : tree.toYaml = .ok text) :
    text.toList = ((writeNode (-1) .root none tree .empty).indentTo 0).text.reverse := by
  unfold toYaml at h
  split at h
  · cases h
  · cases h
    rw [String.toList_ofList]

/-- **No written form is empty.** A scalar without characters ends its line. -/
theorem toList_ne_nil_of_toYaml {tree : Tree} {text : String} (h : tree.toYaml = .ok text) :
    text.toList ≠ [] := by
  have hstarted {page : Page} (hpage : page.Started) : (page.indentTo 0).text ≠ [] :=
    (hpage.of_extends (extends_indentTo page 0)).text_ne_nil
  rw [toYaml_eq_ok h, Ne, List.reverse_eq_nil_iff]
  cases tree with
  | tagged inner content =>
    rw [writeNode]
    exact hstarted (started_underTag rfl rfl (-1) .root inner content)
  | sequence items =>
    rw [writeNode]
    split
    · exact hstarted (started_brackets rfl rfl none (by decide) _)
    · rename_i hitems
      exact hstarted (started_writeItems (by simpa using hitems))
  | mapping entries =>
    rw [writeNode]
    split
    · exact hstarted (started_brackets rfl rfl none (by decide) _)
    · rename_i hentries
      exact hstarted (started_writeEntries (by simpa using hentries))
  | null | bool _ | int _ | float _ | text _ => exact indentTo_scalar_ne_nil _ _ _

/-- **The written form of a mapping starts with a character that is no line feed.** -/
theorem exists_cons_of_toYaml_mapping {entries : List Entry} {text : String}
    (hentries : entries ≠ []) (h : (Tree.mapping entries).toYaml = .ok text) :
    ∃ c rest, text.toList = c :: rest ∧ c ≠ '\n' := by
  have hstart : ((writeNode (-1) .root none (.mapping entries) .empty).indentTo 0).Started := by
    refine Started.of_extends ?_ (extends_indentTo _ 0)
    rw [writeNode]
    have hne : entries.isEmpty = false := by simpa using hentries
    simp only [hne, Bool.false_eq_true, if_false]
    exact started_writeEntries hentries
  obtain ⟨c, hc, hne⟩ := hstart
  rw [← List.head?_reverse, ← toYaml_eq_ok h] at hc
  obtain ⟨rest, hrest⟩ := List.head?_eq_some_iff.1 hc
  exact ⟨c, rest, hrest, hne⟩

end OperatorBundle.Tree
