import OperatorBundle.Proofs.Yaml.LexerRun
import OperatorBundle.Proofs.Layout.Shift

/-!
Keys before their colon: what is written of one stands on one line and is short enough for the lexer
to find the key when the colon comes.
-/

namespace OperatorBundle.Yaml

open OperatorBundle.Text

/-! ### Bytes -/

theorem byteCount_flatMap_le {f : Char → List Char} {factor : Nat}
    (h : ∀ c, byteCount (f c) ≤ factor * c.utf8Size) (cs : List Char) :
    byteCount (cs.flatMap f) ≤ factor * byteCount cs := by
  induction cs with
  | nil => simp [byteCount]
  | cons c rest ih =>
    have hsize : byteCount (c :: rest) = c.utf8Size + byteCount rest := rfl
    have hc := h c
    rw [List.flatMap_cons, byteCount_append, hsize, Nat.mul_add]
    omega

theorem length_toList (bytes : ByteArray) : bytes.toList.length = bytes.size := by
  have hloop (i : Nat) (before : List UInt8) :
      (ByteArray.toList.loop bytes i before).length = before.length + (bytes.size - i) := by
    fun_induction ByteArray.toList.loop bytes i before with
    | case1 i before h ih =>
      rw [ih, List.length_cons]
      omega
    | case2 i before h =>
      rw [List.length_reverse]
      omega
  refine (hloop 0 []).trans ?_
  simp

theorem length_utf8 (c : Char) : (String.ofList [c]).toUTF8.toList.length = c.utf8Size := by
  rw [length_toList]
  show (String.ofList [c]).toByteArray.size = c.utf8Size
  rw [String.toByteArray_ofList, List.utf8Encode_singleton]
  simp

theorem byteCount_hexDigits_two {n : Nat} (hn : n ≤ 0xFF) : byteCount (Page.hexDigits 2 n) = 2 := by
  have hall : ∀ n < 0x100, byteCount (Page.hexDigits 2 n) = 2 := by decide +kernel
  exact hall n (by omega)

theorem byteCount_hexDigits_four {n : Nat} (hn : n ∈ unwritten) :
    byteCount (Page.hexDigits 4 n) = 4 := by
  have hall : ∀ n ∈ unwritten, byteCount (Page.hexDigits 4 n) = 4 := by decide +kernel
  exact hall n hn

theorem byteCount_tagChar_le (c : Char) : byteCount (Page.tagChar c) ≤ 3 * c.utf8Size := by
  have hbytes (bytes : List UInt8) :
      byteCount (bytes.flatMap fun byte => '%' :: Page.hexDigits 2 byte.toNat) =
        3 * bytes.length := by
    induction bytes with
    | nil => rfl
    | cons byte more ih =>
      have hdigits := byteCount_hexDigits_two (Nat.lt_succ_iff.1 byte.toNat_lt)
      have hpercent : byteCount ('%' :: Page.hexDigits 2 byte.toNat) =
          1 + byteCount (Page.hexDigits 2 byte.toNat) := rfl
      rw [List.flatMap_cons, byteCount_append, ih, hpercent, hdigits, List.length_cons]
      omega
  unfold Page.tagChar
  split
  · show c.utf8Size + 0 ≤ 3 * c.utf8Size
    omega
  · rw [hbytes, length_utf8]

theorem byteCount_doubleChar_le (c : Char) : byteCount (Page.doubleChar c) ≤ 4 * c.utf8Size := by
  have hpositive := c.utf8Size_pos
  have hescaped := escaped_doubleChar c
  generalize Page.doubleChar c = cs at hescaped
  cases hescaped with
  | plain =>
    show c.utf8Size + 0 ≤ 4 * c.utf8Size
    omega
  | @letter letter hlookup =>
    have hletter : letter.utf8Size = 1 :=
      (show ∀ pair ∈ (_ : List (Char × Char)), pair.2.utf8Size = 1 by decide) (c, letter)
        (mem_of_lookup hlookup)
    show 1 + (letter.utf8Size + 0) ≤ 4 * c.utf8Size
    omega
  | two hsmall =>
    have hdigits := byteCount_hexDigits_two hsmall
    show 1 + (1 + byteCount (Page.hexDigits 2 c.toNat)) ≤ 4 * c.utf8Size
    omega
  | four hmem =>
    have hdigits := byteCount_hexDigits_four hmem
    have hsize : c.utf8Size ≠ 1 := by
      rw [Ne, Char.utf8Size_eq_one_iff, UInt32.le_iff_toNat_le, Char.toNat_val]
      simp only [unwritten, List.mem_cons, List.not_mem_nil, or_false] at hmem
      rcases hmem with h | h | h <;> rw [h] <;> decide
    show 1 + (1 + byteCount (Page.hexDigits 4 c.toNat)) ≤ 4 * c.utf8Size
    omega

theorem byteCount_writtenTag_le (tag : String) :
    byteCount (writtenTag tag) ≤ 3 * tagSize (some tag) + 3 := by
  have hflat := byteCount_flatMap_le byteCount_tagChar_le
  unfold writtenTag
  show _ ≤ 3 * byteCount (Page.markedTag tag) + 3
  split
  · rename_i c rest heq
    have hc := hflat (c :: rest)
    have hsize : byteCount ('!' :: c :: rest) = 1 + byteCount (c :: rest) := rfl
    have hmark : byteCount ('!' :: (c :: rest).flatMap Page.tagChar) =
      1 + byteCount ((c :: rest).flatMap Page.tagChar) := rfl
    rw [heq, hsize, hmark]
    omega
  · have hcs := hflat (Page.markedTag tag)
    have hmarks : byteCount ('!' :: '<' :: ((Page.markedTag tag).flatMap Page.tagChar ++ ['>'])) =
        1 + (1 + byteCount ((Page.markedTag tag).flatMap Page.tagChar ++ ['>'])) := rfl
    have hclose : byteCount ['>'] = 1 := rfl
    rw [hmarks, byteCount_append, hclose]
    omega

/-! ### What is written of a key -/

variable {cs : List Char}

/-- Most bytes of a word come from the text. -/
theorem byteCount_wordText_le (right indent : Nat) (asked : Style)
    (hcs : ∀ c ∈ cs, endsLine c = false) :
    byteCount (wordText right (asked.fit cs true) indent cs) ≤ 4 * byteCount cs + 2 := by
  have hquoted (quote : Char) (hquote : quote.utf8Size = 1) (body : List Char)
      (hbody : byteCount body ≤ 4 * byteCount cs) :
      byteCount (quote :: (body ++ [quote])) ≤ 4 * byteCount cs + 2 := by
    show quote.utf8Size + byteCount (body ++ [quote]) ≤ _
    have hone : byteCount [quote] = quote.utf8Size + 0 := rfl
    rw [byteCount_append, hone]
    omega
  cases hstyle : asked.fit cs true with
  | plain =>
    show byteCount cs ≤ _
    omega
  | single =>
    refine hquoted '\'' (by decide) _ ?_
    rw [Layout.singleText_of_line hcs]
    refine byteCount_flatMap_le (fun c => ?_) cs
    have hpositive := c.utf8Size_pos
    split
    · show 1 + (1 + 0) ≤ 4 * c.utf8Size
      omega
    · show c.utf8Size + 0 ≤ 4 * c.utf8Size
      omega
  | double => exact hquoted '"' (by decide) _ (byteCount_flatMap_le byteCount_doubleChar_le cs)
  | literal => exact absurd (Style.of_fit_eq_literal hstyle).2.2 (by simp)

theorem byteCount_tagText_le (pen : Pen) (tag : Option String) :
    byteCount (pen.tagText tag ++ gapText (pen.behind tag).gap) ≤ 3 * tagSize tag + 5 := by
  have hgap (gap : Bool) : byteCount (gapText gap) ≤ 1 := by cases gap <;> decide
  have hbehind := hgap (pen.behind tag).gap
  rw [byteCount_append]
  cases tag with
  | none =>
    show 0 + _ ≤ _
    omega
  | some tag =>
    have hwritten := byteCount_writtenTag_le tag
    have hpen := hgap pen.gap
    show byteCount (gapText pen.gap ++ writtenTag tag) + _ ≤ _
    rw [byteCount_append]
    omega

/-- **A key before its colon** is short enough to be found. -/
theorem byteCount_shortKey_le (right : Nat) (indent : Int) (pen : Pen) (tag : Option String)
    (key : Tree) (h : isShortKey tag key) :
    byteCount (nodeText right indent .shortKey pen tag key) ≤ 1000 := by
  have htag := byteCount_tagText_le pen tag
  have hbrackets {cs : List Char} (hcs : byteCount cs = 2) (hsize : tagSize tag ≤ shortKeyLimit) :
      byteCount (pen.tagText tag ++ gapText (pen.behind tag).gap ++ cs ++ lineEnd .shortKey) ≤
        1000 := by
    have hlimit : shortKeyLimit = 128 := rfl
    have hend : byteCount (lineEnd .shortKey) = 0 := rfl
    rw [byteCount_append, byteCount_append _ cs, hcs, hend]
    omega
  have hscalar (tree : Tree) {cs : List Char} {style : Style}
      (hform : scalarForm? tree = some (cs, style))
      (hshort : !cs.any endsLine ∧ tagSize tag + byteCount cs ≤ shortKeyLimit) :
      byteCount (pen.tagText tag ++ gapText (pen.behind tag).gap ++ wordText right
        (style.fit cs true) (scalarIndent indent).toNat cs ++
          wordEnd .shortKey (style.fit cs true) cs) ≤ 1000 := by
    have hlimit : shortKeyLimit = 128 := rfl
    have hend : wordEnd .shortKey (style.fit cs true) cs = [] := by simp [wordEnd, lineEnd]
    have hword := byteCount_wordText_le right (scalarIndent indent).toNat style
      (show ∀ c ∈ cs, endsLine c = false by simpa using hshort.1)
    rw [hend, List.append_nil, byteCount_append]
    omega
  cases key with
  | tagged inner content =>
    rw [nodeText]
    exact byteCount_shortKey_le right indent pen (some inner) content (by simpa [isShortKey] using h)
  | sequence items =>
    obtain ⟨hempty, hsize⟩ := Bool.and_eq_true_iff.1 h
    rw [nodeText, if_pos hempty]
    exact hbrackets rfl (of_decide_eq_true hsize)
  | mapping entries =>
    obtain ⟨hempty, hsize⟩ := Bool.and_eq_true_iff.1 h
    rw [nodeText, if_pos hempty]
    exact hbrackets rfl (of_decide_eq_true hsize)
  | null => exact hscalar .null rfl (by simpa [isShortKey, scalarForm?] using h)
  | bool b => exact hscalar (.bool b) rfl (by simpa [isShortKey, scalarForm?] using h)
  | int n => exact hscalar (.int n) rfl (by simpa [isShortKey, scalarForm?] using h)
  | float x => exact hscalar (.float x) rfl (by simpa [isShortKey, scalarForm?] using h)
  | text s => exact hscalar (.text s) rfl (by simpa [isShortKey, scalarForm?] using h)

end OperatorBundle.Yaml
