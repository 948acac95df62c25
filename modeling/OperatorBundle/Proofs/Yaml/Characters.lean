import Mathlib.Data.Bool.AllAny
import Mathlib.Tactic.Common
import OperatorBundle.Proofs.Yaml.WrittenText

/-!
The characters of a written form: what a tag or an escape sequence is made of, and what every
character of a text is that is written in one way or another.

* `isWritable_of_mem_nodeText`: all that is written can be written as it is.
-/

namespace OperatorBundle.Yaml

open OperatorBundle.Text

/-! ### Classes of characters -/

/-- Whether a character is a visible one of ASCII. -/
def isGraphic (c : Char) : Bool := 0x21 ≤ c.toNat && c.toNat ≤ 0x7E

theorem isAllowed_of_isWritable {c : Char} (h : isWritable c) : isAllowed c := by
  simp only [isWritable, isAllowed, Bool.or_eq_true, Bool.and_eq_true, decide_eq_true_eq] at h ⊢
  tauto

theorem isWritable_of_isGraphic {c : Char} (h : isGraphic c) : isWritable c := by
  simp only [isGraphic, Bool.and_eq_true, decide_eq_true_eq] at h
  simp only [isWritable, Bool.or_eq_true, Bool.and_eq_true, decide_eq_true_eq,
    UInt32.le_iff_toNat_le, UInt32.reduceToNat, Char.toNat_val]
  omega

/-- No visible character stands for another if it equals none. -/
theorem ne_of_isGraphic {c d : Char} (h : isGraphic c) (hd : isGraphic d = false) : c ≠ d := by
  rintro rfl
  rw [h] at hd
  cases hd

theorem endsLine_of_isGraphic {c : Char} (h : isGraphic c) : endsLine c = false := by
  have hfeed := ne_of_isGraphic h (d := '\n') (by decide)
  have hline := ne_of_isGraphic h (d := '\u2028') (by decide)
  have hparagraph := ne_of_isGraphic h (d := '\u2029') (by decide)
  have hreturn := ne_of_isGraphic h (d := '\r') (by decide)
  have hnext := ne_of_isGraphic h (d := '\x85') (by decide)
  simp [endsLine, isBreak, hfeed, hline, hparagraph, hreturn, hnext]

theorem isPad_of_isGraphic {c : Char} (h : isGraphic c) : isPad c = false := by
  have hspace := ne_of_isGraphic h (d := ' ') (by decide)
  have htab := ne_of_isGraphic h (d := '\t') (by decide)
  simp [isPad, hspace, htab]

theorem isGraphic_of_isWord {c : Char} (h : isWord c) : isGraphic c := by
  simp only [isWord, Bool.or_eq_true, Bool.and_eq_true, decide_eq_true_eq, Char.le_def,
    UInt32.le_iff_toNat_le, Char.toNat_val, Char.reduceToNat] at h
  simp only [isGraphic, Bool.and_eq_true, decide_eq_true_eq]
  rcases h with (((h | h) | h) | rfl) | rfl
  · omega
  · omega
  · omega
  · decide
  · decide

theorem isBreak_of_endsLine {c : Char} (h : endsLine c) (hwritable : isWritable c) :
    isBreak c := by
  simp only [endsLine, Bool.or_eq_true, decide_eq_true_eq] at h
  rcases h with (h | rfl) | rfl
  · exact h
  · exact absurd hwritable (by decide)
  · exact absurd hwritable (by decide)

theorem endsLine_of_isBreak {c : Char} (h : isBreak c) : endsLine c := by
  simp [endsLine, h]

theorem isBreak_eq_false {c : Char} (h : endsLine c = false) : isBreak c = false := by
  by_contra hbreak
  rw [endsLine_of_isBreak (by simpa using hbreak)] at h
  cases h

theorem isPad_of_isWritable {c : Char} (hwritable : isWritable c) (hspace : c ≠ ' ') :
    isPad c = false := by
  have htab : c ≠ '\t' := by
    rintro rfl
    exact absurd hwritable (by decide)
  simp [isPad, hspace, htab]

/-! ### Escape sequences -/

/-- The characters past the first two hundred and fifty-six that are not written as they are. -/
def unwritten : List Nat := [0xFEFF, 0xFFFE, 0xFFFF]

theorem mem_unwritten {c : Char} (h : isWritable c = false) (hc : 0xFF < c.toNat) :
    c.toNat ∈ unwritten := by
  have hvalid : c.toNat < 0xD800 ∨ 0xDFFF < c.toNat ∧ c.toNat < 0x110000 := c.valid
  simp only [isWritable, Bool.or_eq_false_iff, Bool.and_eq_false_iff, decide_eq_false_iff_not,
    UInt32.le_iff_toNat_le, ← UInt32.toNat_inj, UInt32.reduceToNat, Char.toNat_val, Ne,
    not_not] at h
  simp only [unwritten, List.mem_cons, List.not_mem_nil]
  omega

/-- How a character stands between double quotes. -/
inductive Escaped (c : Char) : List Char → Prop
  | plain (writable : isWritable c) (line : endsLine c = false) (quote : c ≠ '"')
    (backslash : c ≠ '\\') : Escaped c [c]
  | letter {letter : Char} (lookup : Page.escapeLetter? c = some letter) : Escaped c ['\\', letter]
  | two (small : c.toNat ≤ 0xFF) : Escaped c ('\\' :: 'x' :: Page.hexDigits 2 c.toNat)
  | four (mem : c.toNat ∈ unwritten) : Escaped c ('\\' :: 'u' :: Page.hexDigits 4 c.toNat)

theorem escaped_doubleChar (c : Char) : Escaped c (Page.doubleChar c) := by
  unfold Page.doubleChar
  split
  · rename_i h
    simp only [Bool.and_eq_true, Bool.not_eq_true', decide_eq_true_eq] at h
    exact .plain h.1.1.1 h.1.1.2 h.1.2 h.2
  · rename_i hplain
    split
    · rename_i letter hlookup
      exact .letter hlookup
    · rename_i hlookup
      have hne {d : Char} (hd : Page.escapeLetter? d ≠ none) : c ≠ d := by
        rintro rfl
        exact hd hlookup
      have hwritable : isWritable c = false := by
        have hends : endsLine c = false := by
          have hfeed := hne (d := '\n') (by decide)
          have hline := hne (d := '\u2028') (by decide)
          have hparagraph := hne (d := '\u2029') (by decide)
          have hreturn := hne (d := '\r') (by decide)
          have hnext := hne (d := '\x85') (by decide)
          simp [endsLine, isBreak, hfeed, hline, hparagraph, hreturn, hnext]
        have hquote := hne (d := '"') (by decide)
        have hbackslash := hne (d := '\\') (by decide)
        simpa [hends, hquote, hbackslash] using hplain
      by_cases hsmall : c.toNat ≤ 0xFF
      · rw [if_pos hsmall]
        exact .two hsmall
      · have hmem := mem_unwritten hwritable (by omega)
        have hwide : c.toNat ≤ 0xFFFF := by
          simp only [unwritten, List.mem_cons, List.not_mem_nil, or_false] at hmem
          omega
        rw [if_neg hsmall, if_pos hwide]
        exact .four hmem

theorem isGraphic_of_mem_hexDigits_two {n : Nat} (hn : n ≤ 0xFF) :
    ∀ x ∈ Page.hexDigits 2 n, isGraphic x := by
  have hall : ∀ n < 0x100, (Page.hexDigits 2 n).all isGraphic := by decide +kernel
  exact List.all_eq_true.1 (hall n (by omega))

theorem isGraphic_of_mem_hexDigits_four {n : Nat} (hn : n ∈ unwritten) :
    ∀ x ∈ Page.hexDigits 4 n, isGraphic x := by
  have hall : ∀ n ∈ unwritten, (Page.hexDigits 4 n).all isGraphic := by decide +kernel
  exact List.all_eq_true.1 (hall n hn)

theorem mem_of_lookup {c d : Char} {pairs : List (Char × Char)} (h : pairs.lookup c = some d) :
    (c, d) ∈ pairs := by
  obtain ⟨pre, post, rfl, -⟩ := List.lookup_eq_some_iff.1 h
  simp

theorem isGraphic_of_escapeLetter? {c letter : Char} (h : Page.escapeLetter? c = some letter) :
    isGraphic letter :=
  (show ∀ pair ∈ _, isGraphic pair.2 by decide) (c, letter) (mem_of_lookup h)

/-- Between double quotes a character leaves nothing that ends the line. -/
theorem of_mem_doubleChar {c x : Char} (h : x ∈ Page.doubleChar c) :
    isWritable x ∧ endsLine x = false := by
  have hgraphic (hx : isGraphic x) : isWritable x ∧ endsLine x = false :=
    ⟨isWritable_of_isGraphic hx, endsLine_of_isGraphic hx⟩
  have hescaped := escaped_doubleChar c
  generalize Page.doubleChar c = cs at h hescaped
  cases hescaped with
  | plain hwritable hline =>
    obtain rfl := List.mem_singleton.1 h
    exact ⟨hwritable, hline⟩
  | letter hlookup =>
    rcases List.mem_cons.1 h with rfl | h
    · exact hgraphic (by decide)
    · obtain rfl := List.mem_singleton.1 h
      exact hgraphic (isGraphic_of_escapeLetter? hlookup)
  | two hsmall =>
    rcases List.mem_cons.1 h with rfl | h
    · exact hgraphic (by decide)
    · rcases List.mem_cons.1 h with rfl | h
      · exact hgraphic (by decide)
      · exact hgraphic (isGraphic_of_mem_hexDigits_two hsmall x h)
  | four hmem =>
    rcases List.mem_cons.1 h with rfl | h
    · exact hgraphic (by decide)
    · rcases List.mem_cons.1 h with rfl | h
      · exact hgraphic (by decide)
      · exact hgraphic (isGraphic_of_mem_hexDigits_four hmem x h)

/-! ### Tags -/

theorem isGraphic_of_isPlainInTag {c : Char} (h : Page.isPlainInTag c) : isGraphic c := by
  have hmarks : ∀ c ∈ [';', '/', '?', ':', '@', '&', '=', '+', '$', ',', '.', '~', '*', '\'', '(',
      ')', '[', ']'], isGraphic c := List.all_eq_true.1 (by decide)
  rcases Bool.or_eq_true_iff.1 h with h | h
  · exact isGraphic_of_isWord h
  · exact hmarks c (List.contains_iff_mem.1 h)

theorem isGraphic_of_mem_tagChar {c x : Char} (h : x ∈ Page.tagChar c) : isGraphic x := by
  unfold Page.tagChar at h
  split at h
  · rename_i hplain
    obtain rfl := List.mem_singleton.1 h
    exact isGraphic_of_isPlainInTag hplain
  · obtain ⟨byte, -, hbyte⟩ := List.mem_flatMap.1 h
    rcases List.mem_cons.1 hbyte with rfl | hx
    · decide
    · exact isGraphic_of_mem_hexDigits_two (by have := byte.toNat_lt; omega) x hx

theorem isGraphic_of_mem_writtenTag {tag : String} {x : Char} (h : x ∈ writtenTag tag) :
    isGraphic x := by
  have hflat {cs : List Char} (h : x ∈ cs.flatMap Page.tagChar) : isGraphic x := by
    obtain ⟨c, -, hx⟩ := List.mem_flatMap.1 h
    exact isGraphic_of_mem_tagChar hx
  unfold writtenTag at h
  split at h
  · rcases List.mem_cons.1 h with rfl | h
    · decide
    · exact hflat h
  · rcases List.mem_cons.1 h with rfl | h
    · decide
    · rcases List.mem_cons.1 h with rfl | h
      · decide
      · rcases List.mem_append.1 h with h | h
        · exact hflat h
        · obtain rfl := List.mem_singleton.1 h
          decide

/-! ### All that is written -/

variable {right indent : Nat} {cs : List Char} {x : Char}

theorem isWritable_of_mem_spaces {n : Nat} (h : x ∈ spaces n) : isWritable x := by
  obtain rfl := (List.mem_replicate.1 h).2
  decide

theorem isWritable_of_mem_gapText {gap : Bool} (h : x ∈ gapText gap) : isWritable x := by
  cases gap with
  | true => cases h
  | false =>
    obtain rfl := List.mem_singleton.1 h
    decide

theorem isWritable_of_mem_margin {broken : Option Char} (h : x ∈ margin right indent broken) :
    isWritable x := by
  cases broken with
  | none => cases h
  | some b => exact isWritable_of_mem_spaces h

theorem isWritable_of_mem_drift {broken : Option Char} {c : Char}
    (h : x ∈ drift right broken c) : isWritable x := by
  unfold drift at h
  split at h
  · exact isWritable_of_mem_spaces h
  · cases h

theorem isWritable_of_mem_singleText {broken : Option Char} (hcs : ∀ c ∈ cs, isWritable c)
    (h : x ∈ singleText right indent cs broken) : isWritable x := by
  induction cs generalizing broken with
  | nil => exact isWritable_of_mem_margin h
  | cons c rest ih =>
    obtain ⟨hc, hrest⟩ := List.forall_mem_cons.1 hcs
    unfold singleText at h
    split_ifs at h <;> simp only [List.mem_append, List.mem_cons, List.not_mem_nil, or_false] at h
    · rcases h with rfl | h
      · exact hc
      · exact ih hrest h
    · rcases h with (rfl | h) | rfl | h
      · decide
      · exact isWritable_of_mem_drift h
      · exact hc
      · exact ih hrest h
    · rcases h with (h | h) | rfl | h
      · cases h
      · exact isWritable_of_mem_drift h
      · exact hc
      · exact ih hrest h
    · rcases h with (h | rfl) | rfl | h
      · exact isWritable_of_mem_margin h
      · decide
      · exact hc
      · exact ih hrest h
    · rcases h with h | rfl | h
      · exact isWritable_of_mem_margin h
      · exact hc
      · exact ih hrest h

theorem isWritable_of_mem_literalText {broken : Option Char} (hcs : ∀ c ∈ cs, isWritable c)
    (h : x ∈ literalText right indent cs broken) : isWritable x := by
  induction cs generalizing broken with
  | nil => cases h
  | cons c rest ih =>
    obtain ⟨hc, hrest⟩ := List.forall_mem_cons.1 hcs
    unfold literalText at h
    split_ifs at h
    · rcases List.mem_append.1 h with h | h
      · exact isWritable_of_mem_drift h
      · rcases List.mem_cons.1 h with rfl | h
        · exact hc
        · exact ih hrest h
    · rcases List.mem_append.1 h with h | h
      · exact isWritable_of_mem_margin h
      · rcases List.mem_cons.1 h with rfl | h
        · exact hc
        · exact ih hrest h

/-- What stands against a plain scalar: what stands against single quotes, and more. -/
theorem obstacles_plain (cs : List Char) : (obstacles cs).plain =
    ((obstacles cs).single || cs.any endsLine || cs.head?.any (fun c => c = ' ' || endsLine c) ||
      cs.getLast?.any (fun c => c = ' ' || endsLine c) || startsAmiss cs || endsEarly cs) := rfl

theorem of_plain (h : (obstacles cs).plain = false) :
    (obstacles cs).single = false ∧ ∀ c ∈ cs, endsLine c = false := by
  simp only [obstacles_plain, Bool.or_eq_false_iff] at h
  exact ⟨h.1.1.1.1.1, by simpa using h.1.1.1.1.2⟩

theorem isWritable_of_single (h : (obstacles cs).single = false) : ∀ c ∈ cs, isWritable c := by
  simp only [obstacles, Bool.or_eq_false_iff] at h
  simpa using h.2

theorem isWritable_of_literal (h : (obstacles cs).literal = false) : ∀ c ∈ cs, isWritable c := by
  simp only [obstacles, Bool.or_eq_false_iff] at h
  simpa using h.1.2

theorem isGraphic_of_mem_literalMarks (h : x ∈ Page.literalMarks cs) : isGraphic x := by
  have hmarks : ∀ c ∈ ['2', '-', '+'], isGraphic c := List.all_eq_true.1 (by decide)
  refine hmarks x ?_
  unfold Page.literalMarks at h
  dsimp only at h
  rcases List.mem_append.1 h with h | h
  · split_ifs at h
    · simp_all
    · cases h
  · split at h
    · split_ifs at h
      · simp_all
      · simp_all
      · cases h
    · simp_all

theorem isWritable_of_mem_wordText {style : Style} {asKey : Bool}
    (h : x ∈ wordText right (style.fit cs asKey) indent cs) : isWritable x := by
  cases hstyle : style.fit cs asKey with
  | plain =>
    rw [hstyle] at h
    have hplain := (Style.of_fit_eq_plain hstyle).2.1
    exact isWritable_of_single (of_plain hplain).1 x h
  | single =>
    rw [hstyle] at h
    have hcs := isWritable_of_single (Style.of_fit_eq_single hstyle)
    simp only [wordText, List.mem_cons, List.mem_append, List.not_mem_nil, or_false] at h
    rcases h with rfl | h | rfl
    · decide
    · exact isWritable_of_mem_singleText hcs h
    · decide
  | double =>
    rw [hstyle] at h
    simp only [wordText, List.mem_cons, List.mem_append, List.not_mem_nil, or_false,
      List.mem_flatMap] at h
    rcases h with rfl | ⟨c, -, hx⟩ | rfl
    · decide
    · exact (of_mem_doubleChar hx).1
    · decide
  | literal =>
    rw [hstyle] at h
    have hcs := isWritable_of_literal (Style.of_fit_eq_literal hstyle).2.1
    simp only [wordText, List.mem_cons, List.mem_append] at h
    rcases h with rfl | h | rfl | h
    · decide
    · exact isWritable_of_isGraphic (isGraphic_of_mem_literalMarks h)
    · decide
    · exact isWritable_of_mem_literalText hcs h

theorem isWritable_of_mem_lineEnd {slot : Slot} (h : x ∈ lineEnd slot) : isWritable x := by
  unfold lineEnd at h
  split at h
  · cases h
  · obtain rfl := List.mem_singleton.1 h
    decide

theorem isWritable_of_mem_wordEnd {slot : Slot} {style : Style} (h : x ∈ wordEnd slot style cs) :
    isWritable x := by
  unfold wordEnd at h
  split at h
  · cases h
  · exact isWritable_of_mem_lineEnd h

namespace Pen

variable {pen : Pen} {tag : Option String}

theorem isWritable_of_mem_tagText (h : x ∈ pen.tagText tag) : isWritable x := by
  cases tag with
  | none => cases h
  | some tag =>
    rcases List.mem_append.1 h with h | h
    · exact isWritable_of_mem_gapText h
    · exact isWritable_of_isGraphic (isGraphic_of_mem_writtenTag h)

theorem isWritable_of_mem_lead {column : Nat} (h : x ∈ pen.lead column) : isWritable x := by
  unfold lead at h
  split at h
  · exact isWritable_of_mem_gapText h
  · rcases List.mem_cons.1 h with rfl | h
    · decide
    · exact isWritable_of_mem_spaces h

end Pen

mutual
/-- **All that is written can be written as it is.** -/
theorem isWritable_of_mem_nodeText (right : Nat) (indent : Int) (slot : Slot) (pen : Pen)
    (tag : Option String) (tree : Tree) :
    ∀ x ∈ nodeText right indent slot pen tag tree, isWritable x := by
  have hscalar (tree : Tree) {cs : List Char} {style : Style}
      (hform : scalarForm? tree = some (cs, style)) : ∀ x ∈ pen.tagText tag ++
        gapText (pen.behind tag).gap ++ wordText right (style.fit cs (slot = .shortKey))
          (scalarIndent indent).toNat cs ++ wordEnd slot (style.fit cs (slot = .shortKey)) cs,
      isWritable x := by
    intro x h
    simp only [List.mem_append] at h
    rcases h with ((h | h) | h) | h
    · exact Pen.isWritable_of_mem_tagText h
    · exact isWritable_of_mem_gapText h
    · exact isWritable_of_mem_wordText h
    · exact isWritable_of_mem_wordEnd h
  have hbrackets (cs : List Char) (hcs : ∀ c ∈ cs, isWritable c) : ∀ x ∈ pen.tagText tag ++
      gapText (pen.behind tag).gap ++ cs ++ lineEnd slot, isWritable x := by
    intro x h
    simp only [List.mem_append] at h
    rcases h with ((h | h) | h) | h
    · exact Pen.isWritable_of_mem_tagText h
    · exact isWritable_of_mem_gapText h
    · exact hcs x h
    · exact isWritable_of_mem_lineEnd h
  cases tree with
  | tagged inner content =>
    rw [nodeText]
    exact isWritable_of_mem_nodeText right indent slot pen (some inner) content
  | sequence items =>
    rw [nodeText]
    split
    · exact hbrackets _ (List.all_eq_true.1 (by decide))
    · intro x h
      rcases List.mem_append.1 h with h | h
      · exact Pen.isWritable_of_mem_tagText h
      · exact isWritable_of_mem_itemsText right _ _ (fun x => Pen.isWritable_of_mem_lead) items x h
  | mapping entries =>
    rw [nodeText]
    split
    · exact hbrackets _ (List.all_eq_true.1 (by decide))
    · intro x h
      rcases List.mem_append.1 h with h | h
      · exact Pen.isWritable_of_mem_tagText h
      · exact isWritable_of_mem_entriesText right _ _ (fun x => Pen.isWritable_of_mem_lead) entries
          x h
  | null => exact hscalar .null rfl
  | bool b => exact hscalar (.bool b) rfl
  | int n => exact hscalar (.int n) rfl
  | float x => exact hscalar (.float x) rfl
  | text s => exact hscalar (.text s) rfl

theorem isWritable_of_mem_itemsText (right column : Nat) (lead : List Char)
    (hlead : ∀ x ∈ lead, isWritable x) (items : List Tree) :
    ∀ x ∈ itemsText right column lead items, isWritable x := by
  intro x h
  cases items with
  | nil => cases h
  | cons item more =>
    rw [itemsText] at h
    simp only [List.mem_append, List.mem_cons] at h
    rcases h with (h | rfl | h) | h
    · exact hlead x h
    · decide
    · exact isWritable_of_mem_nodeText right _ _ _ _ item x h
    · exact isWritable_of_mem_itemsText right column _ (fun x => isWritable_of_mem_spaces) more x h

theorem isWritable_of_mem_entriesText (right column : Nat) (lead : List Char)
    (hlead : ∀ x ∈ lead, isWritable x) (entries : List (Tree × Tree)) :
    ∀ x ∈ entriesText right column lead entries, isWritable x := by
  intro x h
  cases entries with
  | nil => cases h
  | cons entry more =>
    obtain ⟨key, value⟩ := entry
    rw [entriesText] at h
    simp only [List.mem_append] at h
    rcases h with (h | h) | h
    · exact hlead x h
    · split at h
      · simp only [List.mem_append, List.mem_cons] at h
        rcases h with h | rfl | h
        · exact isWritable_of_mem_nodeText right _ _ _ _ key x h
        · decide
        · exact isWritable_of_mem_nodeText right _ _ _ _ value x h
      · simp only [List.mem_append, List.mem_cons] at h
        rcases h with ((rfl | h) | h) | rfl | h
        · decide
        · exact isWritable_of_mem_nodeText right _ _ _ _ key x h
        · exact isWritable_of_mem_spaces h
        · decide
        · exact isWritable_of_mem_nodeText right _ _ _ _ value x h
    · exact isWritable_of_mem_entriesText right column _ (fun x => isWritable_of_mem_spaces) more
        x h
end

end OperatorBundle.Yaml
