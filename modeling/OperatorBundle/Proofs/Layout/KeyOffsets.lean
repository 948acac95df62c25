import OperatorBundle.Layout.Key
import OperatorBundle.Proofs.Layout.Access

/-!
The key of an entry, scanned by offsets. The quote that closes a key is looked for byte by byte, and
a backslash skips two bytes, which may end within a character: the scan then goes on to the end of
that character, since no byte of it is a quote or a backslash. Every offset at which a key is cut is
one between two characters, and the key is the one that is read character by character.

* `closingQuote?_append`: where a quoted key ends.
* `firstColon_colons`: which colon ends any other key.
* `Scan.splitKey_eq`: the scan ends without a fault, with the key and what follows its colon.
-/

namespace OperatorBundle.Layout

open OperatorBundle.Text Scan

/-! ### Bytes of a character -/

/-- The bytes of a character of several bytes are none of the characters of one byte. -/
theorem le_of_mem_utf8EncodeChar {c : Char} {byte : UInt8} (hc : c.utf8Size ≠ 1)
    (h : byte ∈ String.utf8EncodeChar c) : 128 ≤ byte.toNat := by
  have hlarge : ¬ c.val.toNat ≤ 127 := fun hle =>
    hc (Char.utf8Size_eq_one_iff.2 (UInt32.le_iff_toNat_le.2 hle))
  simp only [String.utf8EncodeChar, if_neg hlarge] at h
  split_ifs at h <;> simp only [List.mem_cons, List.not_mem_nil, or_false] at h
  · rcases h with rfl | rfl <;> simp [UInt8.toNat_ofNat'] <;> omega
  · rcases h with rfl | rfl | rfl <;> simp [UInt8.toNat_ofNat'] <;> omega
  · rcases h with rfl | rfl | rfl | rfl <;> simp [UInt8.toNat_ofNat'] <;> omega

theorem toNat_toUInt8 {c : Char} (hc : c.utf8Size = 1) :
    c.toUInt8.toNat = c.toNat ∧ c.toNat < 128 := by
  have hle : c.val.toNat ≤ 127 := UInt32.le_iff_toNat_le.1 (Char.utf8Size_eq_one_iff.1 hc)
  have hmod : c.toUInt8.toNat = c.val.toNat % 256 := rfl
  have hnat : c.toNat = c.val.toNat := rfl
  omega

theorem toUInt8_inj {c d : Char} (hc : c.utf8Size = 1) (hd : d.utf8Size = 1)
    (h : c.toUInt8 = d.toUInt8) : c = d := by
  have hbyte : c.toUInt8.toNat = d.toUInt8.toNat := congrArg UInt8.toNat h
  rw [(toNat_toUInt8 hc).1, (toNat_toUInt8 hd).1] at hbyte
  exact Char.toNat_inj.1 hbyte

/-- A character of one byte is found in no other. -/
theorem eq_of_mem_utf8EncodeChar {c d : Char} (hd : d.utf8Size = 1)
    (h : d.toUInt8 ∈ String.utf8EncodeChar c) : c = d := by
  by_cases hc : c.utf8Size = 1
  · rw [String.utf8EncodeChar_eq_singleton hc, List.mem_singleton] at h
    exact (toUInt8_inj hd hc h).symm
  · have := le_of_mem_utf8EncodeChar hc h
    have := toNat_toUInt8 hd
    omega

/-- Behind its first byte, a character has bytes of no other. -/
theorem utf8EncodeChar_eq_cons (c : Char) :
    ∃ first others, String.utf8EncodeChar c = first :: others ∧
      ∀ byte ∈ others, 128 ≤ byte.toNat := by
  by_cases hc : c.utf8Size = 1
  · exact ⟨_, [], String.utf8EncodeChar_eq_singleton hc, by simp⟩
  · have hne : String.utf8EncodeChar c ≠ [] := by
      intro hnil
      have := c.utf8Size_pos
      rw [← String.length_utf8EncodeChar, hnil] at this
      cases this
    obtain ⟨first, others, heq⟩ := List.exists_cons_of_ne_nil hne
    refine ⟨first, others, heq, ?_⟩
    intro byte hbyte
    exact le_of_mem_utf8EncodeChar hc (heq ▸ List.mem_cons_of_mem first hbyte)

theorem bytes_cons_of_ascii {c : Char} (hc : c.utf8Size = 1) (rest : List Char) :
    bytes (c :: rest) = c.toUInt8 :: bytes rest := by
  rw [bytes_cons, String.utf8EncodeChar_eq_singleton hc]
  rfl

theorem head?_bytes {c d : Char} {rest : List Char} (hc : c.utf8Size = 1) :
    (bytes (d :: rest)).head? = some c.toUInt8 ↔ d = c := by
  constructor
  · intro h
    obtain ⟨first, others, heq, -⟩ := utf8EncodeChar_eq_cons d
    rw [bytes_cons, heq, List.cons_append, List.head?_cons, Option.some.injEq] at h
    subst h
    exact eq_of_mem_utf8EncodeChar hc (heq ▸ List.mem_cons_self)
  · rintro rfl
    rw [bytes_cons_of_ascii hc, List.head?_cons]

/-! ### Quotes -/

/-- The offset past the quote that closes a key, looked for from an offset on. -/
def closingQuote? (quote : UInt8) (text : List UInt8) (offset : Nat) : Option Nat :=
  if h : offset < text.length then
    if text[offset] = '\\'.toUInt8 ∧ quote = '"'.toUInt8 then closingQuote? quote text (offset + 2)
    else if text[offset] = quote ∧ quote = '\''.toUInt8 ∧ text[offset + 1]? = some quote then
      closingQuote? quote text (offset + 2)
    else if text[offset] = quote then some (offset + 1)
    else closingQuote? quote text (offset + 1)
  else none
termination_by text.length - offset

/-- A byte that the scan for a quote goes past. -/
def Passed (quote byte : UInt8) : Prop :=
  byte ≠ quote ∧ ¬ (byte = '\\'.toUInt8 ∧ quote = '"'.toUInt8)

/-- The bytes of a character other than a quote, or than a backslash between double quotes. -/
theorem passed_of_mem {quote c : Char} {byte : UInt8} (hquote : quote.utf8Size = 1) (hc : c ≠ quote)
    (hescape : ¬ (c = '\\' ∧ quote = '"')) (h : byte ∈ String.utf8EncodeChar c) :
    Passed quote.toUInt8 byte := by
  constructor
  · rintro rfl
    exact hc (eq_of_mem_utf8EncodeChar hquote h)
  · rintro ⟨rfl, hdouble⟩
    exact hescape ⟨eq_of_mem_utf8EncodeChar (by decide) h, toUInt8_inj hquote (by decide) hdouble⟩

theorem passed_of_le {quote : Char} {byte : UInt8} (hquote : quote.utf8Size = 1)
    (h : 128 ≤ byte.toNat) : Passed quote.toUInt8 byte := by
  constructor
  · rintro rfl
    have := toNat_toUInt8 hquote
    omega
  · rintro ⟨rfl, -⟩
    exact absurd h (by decide)

theorem closingQuote?_passed {quote : UInt8} {passed : List UInt8} (before more : List UInt8)
    (h : ∀ byte ∈ passed, Passed quote byte) :
    closingQuote? quote (before ++ (passed ++ more)) before.length =
      closingQuote? quote (before ++ passed ++ more) (before ++ passed).length := by
  induction passed generalizing before with
  | nil => simp
  | cons byte passed ih =>
    obtain ⟨⟨hquote, hescape⟩, hpassed⟩ := List.forall_mem_cons.1 h
    rw [closingQuote?, dif_pos (by simp)]
    have hbyte (h : before.length < (before ++ (byte :: passed ++ more)).length) :
        (before ++ (byte :: passed ++ more))[before.length] = byte := by simp
    rw [hbyte, if_neg hescape, if_neg (fun h => hquote h.1), if_neg hquote]
    simpa using ih (before ++ [byte]) hpassed

theorem closingQuote?_cons (quote byte : UInt8) (before more : List UInt8) :
    closingQuote? quote (before ++ byte :: more) before.length =
      if byte = '\\'.toUInt8 ∧ quote = '"'.toUInt8 then
        closingQuote? quote (before ++ byte :: more) (before.length + 2)
      else if byte = quote ∧ quote = '\''.toUInt8 ∧ more.head? = some quote then
        closingQuote? quote (before ++ byte :: more) (before.length + 2)
      else if byte = quote then some (before.length + 1)
      else closingQuote? quote (before ++ byte :: more) (before.length + 1) := by
  have hbyte (h : before.length < (before ++ byte :: more).length) :
      (before ++ byte :: more)[before.length] = byte := by simp
  have hnext : (before ++ byte :: more)[before.length + 1]? = more.head? := by
    rw [List.getElem?_append_right (by omega)]
    simp [List.head?_eq_getElem?]
  rw [closingQuote?, dif_pos (by simp), hbyte, hnext]

theorem closingQuote?_length (quote : UInt8) (text : List UInt8) {offset : Nat}
    (h : text.length ≤ offset) : closingQuote? quote text offset = none := by
  rw [closingQuote?, dif_neg (by omega)]

/-- Past a backslash and the first byte after it, the scan goes on behind a whole character. -/
theorem closingQuote?_skip {quote : Char} (hquote : quote.utf8Size = 1) (byte : UInt8) (d : Char)
    (before more : List UInt8) :
    closingQuote? quote.toUInt8 (before ++ byte :: (String.utf8EncodeChar d ++ more))
        (before.length + 2) =
      closingQuote? quote.toUInt8 (before ++ byte :: String.utf8EncodeChar d ++ more)
        (before ++ byte :: String.utf8EncodeChar d).length := by
  obtain ⟨first, others, heq, hothers⟩ := utf8EncodeChar_eq_cons d
  have hpassed := closingQuote?_passed (before ++ [byte, first]) more
    fun b hb => passed_of_le hquote (hothers b hb)
  rw [heq]
  simpa using hpassed

/-- **A quoted key ends where it does when it is read character by character.** -/
theorem closingQuote?_append {quote : Char} (hquote : quote.utf8Size = 1) (before : List UInt8)
    (text : List Char) :
    closingQuote? quote.toUInt8 (before ++ bytes text) before.length =
      (closeQuote? quote text).map fun p => before.length + size p.1 := by
  have hsingle (byte : UInt8) : ¬ (byte = '\\'.toUInt8 ∧ byte = '"'.toUInt8) := by
    rintro ⟨rfl, h⟩
    exact absurd h (by decide)
  fun_induction closeQuote? quote text generalizing before with
  | case1 => exact closingQuote?_length _ _ (by simp)
  | case2 =>
    rw [bytes_cons_of_ascii hquote, closingQuote?_cons, if_neg (hsingle _), if_neg (by simp),
      if_pos rfl]
    simp [hquote]
  | case3 c hc =>
    by_cases hescape : c = '\\' ∧ quote = '"'
    · obtain ⟨rfl, rfl⟩ := hescape
      rw [bytes_cons_of_ascii (by decide), closingQuote?_cons, if_pos ⟨rfl, rfl⟩]
      exact closingQuote?_length _ _ (by simp)
    · have hpassed := closingQuote?_passed before [] fun b hb =>
        passed_of_mem hquote hc hescape hb
      rw [bytes_cons, bytes_nil, hpassed]
      exact closingQuote?_length _ _ (by simp)
  | case4 c d rest hescape ih =>
    obtain ⟨rfl, rfl⟩ := hescape
    rw [bytes_cons_of_ascii (by decide), closingQuote?_cons, if_pos ⟨rfl, rfl⟩, bytes_cons,
      closingQuote?_skip hquote, ih, Option.map_map]
    congr 1
    funext p
    have hsize : '\\'.utf8Size = 1 := rfl
    simp
    omega
  | case5 d rest hdoubled hescape ih =>
    obtain ⟨rfl, rfl⟩ := hdoubled
    rw [bytes_cons_of_ascii hquote, closingQuote?_cons, if_neg (hsingle _),
      if_pos ⟨rfl, rfl, (head?_bytes hquote).2 rfl⟩, bytes_cons, closingQuote?_skip hquote, ih,
      Option.map_map]
    congr 1
    funext p
    simp
    omega
  | case6 d rest hdoubled hescape =>
    rw [bytes_cons_of_ascii hquote, closingQuote?_cons, if_neg (hsingle _), if_neg ?_, if_pos rfl]
    · simp [hquote]
    · rintro ⟨-, hsq, hnext⟩
      exact hdoubled ⟨toUInt8_inj hquote (by decide) hsq, (head?_bytes hquote).1 hnext⟩
  | case7 c d rest hescape hc ih =>
    rw [bytes_cons, closingQuote?_passed before _ fun b hb => passed_of_mem hquote hc hescape hb,
      ih, Option.map_map]
    congr 1
    funext p
    simp
    omega

-- the backslash skips the first of the two bytes of the letter after it
example : closingQuote? '"'.toUInt8 (bytes ['"', '\\', 'é', '"', ':']) 1 = some 5 := by cbv

theorem append_of_closeQuote? {quote : Char} {text inner after : List Char}
    (h : closeQuote? quote text = some (inner, after)) : inner ++ after = text := by
  fun_induction closeQuote? quote text generalizing inner after with
  | case1 | case3 => cases h
  | case2 | case6 =>
    obtain ⟨rfl, rfl⟩ := Prod.mk.inj (Option.some.inj h)
    rfl
  | case4 c d rest _ ih | case5 d rest _ _ ih | case7 c d rest _ _ ih =>
    obtain ⟨found, hrest, hcons⟩ := Option.map_eq_some_iff.1 h
    obtain ⟨rfl, rfl⟩ := Prod.mk.inj hcons
    simp [ih hrest]

/-! ### Colons -/

/-- The offsets of the colons of a text, which itself starts at an offset. -/
def colons (offset : Nat) : List Char → List Nat
  | [] => []
  | c :: rest =>
    if c = ':' then offset :: colons (offset + c.utf8Size) rest
    else colons (offset + c.utf8Size) rest

/-- The first of some colons that a value may follow. -/
def firstColon (text : List Char) : List Nat → Scan Nat
  | [] => failure
  | colon :: more => do
    let after ← textAfter (colon + 1) text
    if atValue after then pure colon else firstColon text more

/-- **Any other key ends at the colon where it does when it is read character by character.** -/
theorem firstColon_colons (before text : List Char) :
    firstColon (before ++ text) (colons (size before) text) =
      ended ((splitColon? text).map fun p => size before + size p.1) := by
  induction text generalizing before with
  | nil => rfl
  | cons c rest ih =>
    have hrest := ih (before ++ [c])
    rw [List.append_assoc, List.singleton_append, size_append, size_cons, size_nil, Nat.add_zero]
      at hrest
    have hnext : ((splitColon? rest).map fun p => size before + c.utf8Size + size p.1) =
        ((splitColon? rest).map fun p => (c :: p.1, p.2)).map fun p => size before + size p.1 := by
      rw [Option.map_map]
      congr 1
      funext p
      simp [Nat.add_assoc]
    rw [colons, splitColon?]
    by_cases hc : c = ':'
    · subst hc
      have hafter : textAfter (size before + 1) (before ++ ':' :: rest) = ended (some rest) :=
        textAfter_eq.2 ⟨before ++ [':'], by simp, by simp; rfl⟩
      rw [if_pos rfl, firstColon, hafter, some_bind]
      by_cases hvalue : atValue rest = true
      · simp [hvalue]
      · simp [hvalue, hrest, hnext]
    · simp [hc, hrest, hnext]

theorem append_of_splitColon? {text before after : List Char}
    (h : splitColon? text = some (before, after)) : text = before ++ ':' :: after := by
  induction text generalizing before with
  | nil => cases h
  | cons c rest ih =>
    rw [splitColon?] at h
    split_ifs at h with hc
    · cases h
      simp_all
    · obtain ⟨⟨before', after'⟩, hrest, hcons⟩ := Option.map_eq_some_iff.1 h
      obtain ⟨rfl, rfl⟩ := Prod.mk.inj hcons
      rw [ih hrest, List.cons_append]

/-! ### Keys -/

/-- The key of an entry, and what follows its colon, cut out of a line. -/
def Scan.splitKey (text : List Char) : Scan (List Char × List Char) :=
  match text with
  | [] => failure
  | c :: _ =>
    if c = '"' ∨ c = '\'' then do
      let stop ← ended (closingQuote? c.toUInt8 (bytes text) 1)
      let after ← textAfter stop text
      match trimLeft after with
      | ':' :: value =>
        if atValue value then do
          let key ← textBefore stop text
          pure (key, value)
        else failure
      | _ => failure
    else if startsNoKey c then failure
    else do
      let colon ← firstColon text (colons 0 text)
      let key ← textBefore colon text
      let value ← textAfter (colon + 1) text
      pure (trimRight key, value)

/-- **A key is cut out of any line without a fault.** -/
theorem Scan.splitKey_eq (text : List Char) : splitKey text = ended (splitKey? text) := by
  cases text with
  | nil => rfl
  | cons c rest =>
  rw [splitKey, splitKey?]
  by_cases hquoted : c = '"' ∨ c = '\''
  · rw [if_pos hquoted, if_pos hquoted]
    have hone : c.utf8Size = 1 := by rcases hquoted with rfl | rfl <;> rfl
    have hstop := closingQuote?_append hone [c.toUInt8] rest
    rw [List.singleton_append, ← bytes_cons_of_ascii hone, List.length_singleton] at hstop
    rw [hstop]
    cases hclose : closeQuote? c rest with
    | none => rfl
    | some found =>
      obtain ⟨inner, after⟩ := found
      have hsplit : c :: rest = c :: inner ++ after := by
        rw [List.cons_append, append_of_closeQuote? hclose]
      have hafter : textAfter (1 + size inner) (c :: rest) = ended (some after) :=
        textAfter_eq.2 ⟨c :: inner, hsplit, by rw [size_cons, hone]⟩
      have hbefore : textBefore (1 + size inner) (c :: rest) = ended (some (c :: inner)) :=
        textBefore_eq.2 ⟨after, hsplit, by rw [size_cons, hone]⟩
      simp only [Option.map_some, some_bind, hafter, hbefore]
      simp only [Option.bind_eq_bind, Option.bind_some]
      cases trimLeft after with
      | nil => rfl
      | cons d value =>
        by_cases hd : d = ':'
        · subst hd
          by_cases hvalue : atValue value = true <;> simp [hvalue]
        · simp [hd]
  · rw [if_neg hquoted, if_neg hquoted]
    split_ifs with hnone
    · rfl
    have hcolon := firstColon_colons [] (c :: rest)
    rw [List.nil_append, size_nil] at hcolon
    rw [hcolon]
    cases hsplit : splitColon? (c :: rest) with
    | none => rfl
    | some found =>
      obtain ⟨before, after⟩ := found
      have htext := append_of_splitColon? hsplit
      have hbefore : textBefore (0 + size before) (c :: rest) = ended (some before) :=
        textBefore_eq.2 ⟨':' :: after, htext, by rw [Nat.zero_add]⟩
      have hafter : textAfter (0 + size before + 1) (c :: rest) = ended (some after) :=
        textAfter_eq.2 ⟨before ++ [':'], by simp [htext], by simp; rfl⟩
      simp only [Option.map_some, some_bind, hbefore, hafter, pure_eq]

end OperatorBundle.Layout
