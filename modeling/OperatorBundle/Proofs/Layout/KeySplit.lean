import OperatorBundle.Proofs.Layout.KeyOffsets
import OperatorBundle.Proofs.Text.Trimming

/-!
Where the key of an entry ends. A quoted key is a complete quoted scalar, and only blanks stand
between it and its colon, whatever colons, quotes and backslashes are in it; any other key ends at
the first colon of the line that a value may follow. These rules say of every text whether it is
split, and where.

* `closeQuote?_eq_some`: a scalar is read up to the quote that closes it.
* `splitColon?_eq_some`: a text is split at the first colon that a value may follow.
* `split_iff_key_ends`: a text is split into a key and a value where the key ends, and nowhere else.
-/

namespace OperatorBundle.Layout

open OperatorBundle.Text Scan

/-- What stands between the quotes of a scalar. A single quote is written twice there; between
double quotes a quote or a backslash stands behind a backslash, as may any other character. -/
inductive QuotedBody (quote : Char) : List Char → Prop
  | nil : QuotedBody quote []
  | char {c : Char} {body : List Char} (hquote : c ≠ quote) (hescape : ¬ (c = '\\' ∧ quote = '"')) :
    QuotedBody quote body → QuotedBody quote (c :: body)
  | doubled {body : List Char} (hsingle : quote = '\'') :
    QuotedBody quote body → QuotedBody quote (quote :: quote :: body)
  | escaped {c : Char} {body : List Char} (hdouble : quote = '"') :
    QuotedBody quote body → QuotedBody quote ('\\' :: c :: body)

/-- A complete scalar in single or double quotes. -/
def IsQuoted (key : List Char) : Prop :=
  ∃ quote body, (quote = '"' ∨ quote = '\'') ∧ QuotedBody quote body ∧
    key = quote :: (body ++ [quote])

/-- Nothing, or a space first: what may stand behind the colon of a key. -/
def IsValuePart (value : List Char) : Prop := value = [] ∨ value.head? = some ' '

/-- Before an offset of a text there is no colon that a value may follow. -/
def NoColonBefore (offset : Nat) (text : List Char) : Prop :=
  ∀ before value, text = before ++ ':' :: value → IsValuePart value → offset ≤ before.length

/-- A text starts with a key without quotes and the blanks behind it: no quote or indicator starts
it, the key ends in no blank, and no colon that a value may follow stands in it. -/
structure StartsPlain (text key gap : List Char) : Prop where
  first : ∃ c, text.head? = some c ∧ c ≠ '"' ∧ c ≠ '\'' ∧ startsNoKey c = false
  last : ∀ c, key.getLast? = some c → isBlank c = false
  colon : NoColonBefore (key ++ gap).length text

theorem atValue_iff {value : List Char} : atValue value = true ↔ IsValuePart value := by
  cases value <;> simp [atValue, IsValuePart]

/-! ### Quoted keys -/

/-- The scan takes a character that is no mark as it stands. -/
theorem closeQuote?_cons {quote c : Char} (text : List Char) (hquote : c ≠ quote)
    (hescape : ¬ (c = '\\' ∧ quote = '"')) :
    closeQuote? quote (c :: text) =
      (closeQuote? quote text).map fun (inner, after) => (c :: inner, after) := by
  cases text with
  | nil => simp [closeQuote?, hquote]
  | cons d rest => rw [closeQuote?, if_neg hescape, if_neg hquote]

/-- A quote closes a scalar unless it is the first of two single quotes. -/
theorem closeQuote?_quote {quote : Char} {after : List Char}
    (h : quote = '\'' → after.head? ≠ some quote) :
    closeQuote? quote (quote :: after) = some ([quote], after) := by
  cases after with
  | nil => simp [closeQuote?]
  | cons d rest =>
    rw [closeQuote?, if_neg (by rintro ⟨rfl, h⟩; exact absurd h (by decide)), if_pos rfl, if_neg]
    rintro ⟨hsingle, rfl⟩
    exact h hsingle rfl

theorem closeQuote?_body {quote : Char} {body after : List Char} (hbody : QuotedBody quote body)
    (h : quote = '\'' → after.head? ≠ some quote) :
    closeQuote? quote (body ++ quote :: after) = some (body ++ [quote], after) := by
  induction hbody with
  | nil => exact closeQuote?_quote h
  | char hquote hescape _ ih => rw [List.cons_append, closeQuote?_cons _ hquote hescape, ih]; rfl
  | doubled hsingle _ ih =>
    subst hsingle
    simp [closeQuote?, ih]
  | escaped hdouble _ ih =>
    subst hdouble
    simp [closeQuote?, ih]

theorem exists_body_of_closeQuote? {quote : Char} {text inner after : List Char}
    (h : closeQuote? quote text = some (inner, after)) :
    ∃ body, QuotedBody quote body ∧ inner = body ++ [quote] ∧
      (quote = '\'' → after.head? ≠ some quote) := by
  -- a text that ends too soon, a quote at the end, an escape, a doubled quote, the quote that
  -- closes the scalar, and any other character
  fun_induction closeQuote? quote text generalizing inner after with
  | case1 | case3 => cases h
  | case2 =>
    cases h
    exact ⟨[], .nil, rfl, by simp⟩
  | case4 c d rest hescape ih =>
    obtain ⟨⟨inner, after⟩, hrest, hcons⟩ := Option.map_eq_some_iff.1 h
    cases hcons
    obtain ⟨rfl, rfl⟩ := hescape
    obtain ⟨body, hbody, rfl, hafter⟩ := ih hrest
    exact ⟨_, .escaped rfl hbody, rfl, hafter⟩
  | case5 d rest hdoubled _ ih =>
    obtain ⟨⟨inner, after⟩, hrest, hcons⟩ := Option.map_eq_some_iff.1 h
    cases hcons
    obtain ⟨hsingle, rfl⟩ := hdoubled
    obtain ⟨body, hbody, rfl, hafter⟩ := ih hrest
    exact ⟨_, .doubled hsingle hbody, rfl, hafter⟩
  | case6 d rest hdoubled =>
    cases h
    refine ⟨[], .nil, rfl, ?_⟩
    intro hsingle hnext
    exact hdoubled ⟨hsingle, Option.some.inj hnext⟩
  | case7 c d rest hescape hc ih =>
    obtain ⟨⟨inner, after⟩, hrest, hcons⟩ := Option.map_eq_some_iff.1 h
    cases hcons
    obtain ⟨body, hbody, rfl, hafter⟩ := ih hrest
    exact ⟨_, .char hc hescape hbody, rfl, hafter⟩

/-- **A scalar is read up to the quote that closes it.** -/
theorem closeQuote?_eq_some {quote : Char} {text inner after : List Char} :
    closeQuote? quote text = some (inner, after) ↔
      ∃ body, QuotedBody quote body ∧ inner = body ++ [quote] ∧ text = inner ++ after ∧
        (quote = '\'' → after.head? ≠ some quote) := by
  constructor
  · intro h
    obtain ⟨body, hbody, rfl, hafter⟩ := exists_body_of_closeQuote? h
    exact ⟨body, hbody, rfl, (append_of_closeQuote? h).symm, hafter⟩
  · rintro ⟨body, hbody, rfl, rfl, hafter⟩
    rw [List.append_assoc]
    exact closeQuote?_body hbody hafter

/-! ### Plain keys -/

theorem noColonBefore_zero (text : List Char) : NoColonBefore 0 text :=
  fun before _ _ _ => Nat.zero_le before.length

theorem noColonBefore_cons {offset : Nat} {c : Char} {text : List Char} :
    NoColonBefore (offset + 1) (c :: text) ↔
      ¬ (c = ':' ∧ IsValuePart text) ∧ NoColonBefore offset text := by
  constructor
  · intro h
    refine ⟨?_, ?_⟩
    · rintro ⟨rfl, hvalue⟩
      exact absurd (h [] text rfl hvalue) (Nat.not_succ_le_zero offset)
    · rintro before value rfl hvalue
      exact Nat.le_of_succ_le_succ (h (c :: before) value rfl hvalue)
  · rintro ⟨hc, h⟩ before value heq hvalue
    cases before with
    | nil =>
      obtain ⟨rfl, rfl⟩ := List.cons.inj heq
      exact absurd ⟨rfl, hvalue⟩ hc
    | cons d before => exact Nat.succ_le_succ (h before value (List.cons.inj heq).2 hvalue)

/-- **A text is split at the first colon that a value may follow.** -/
theorem splitColon?_eq_some {text before value : List Char} :
    splitColon? text = some (before, value) ↔
      text = before ++ ':' :: value ∧ IsValuePart value ∧ NoColonBefore before.length text := by
  induction text generalizing before with
  | nil => simp [splitColon?]
  | cons c rest ih =>
    rw [splitColon?]
    by_cases hc : c = ':' ∧ IsValuePart rest
    · rw [if_pos (by simpa [atValue_iff] using hc)]
      constructor
      · intro h
        cases h
        exact ⟨by rw [hc.1]; rfl, hc.2, noColonBefore_zero _⟩
      · rintro ⟨heq, -, hfirst⟩
        cases before with
        | nil =>
          obtain ⟨-, rfl⟩ := List.cons.inj heq
          rfl
        | cons d before => exact absurd hc (noColonBefore_cons.1 hfirst).1
    · rw [if_neg (by simpa [atValue_iff] using hc), Option.map_eq_some_iff]
      constructor
      · rintro ⟨⟨before, value⟩, hrest, hcons⟩
        cases hcons
        obtain ⟨rfl, hvalue, hfirst⟩ := ih.1 hrest
        exact ⟨rfl, hvalue, noColonBefore_cons.2 ⟨hc, hfirst⟩⟩
      · rintro ⟨heq, hvalue, hfirst⟩
        cases before with
        | nil =>
          obtain ⟨rfl, rfl⟩ := List.cons.inj heq
          exact absurd ⟨rfl, hvalue⟩ hc
        | cons d before =>
          obtain ⟨rfl, rfl⟩ := List.cons.inj heq
          exact ⟨(before, value), ih.2 ⟨rfl, hvalue, (noColonBefore_cons.1 hfirst).2⟩, rfl⟩

/-! ### Keys -/

/-- The colon of a quoted key comes next behind its quotes, blanks apart. -/
theorem splitKey?_quoted {c : Char} {rest key value : List Char} (hc : c = '"' ∨ c = '\'') :
    splitKey? (c :: rest) = some (key, value) ↔
      ∃ inner gap, closeQuote? c rest = some (inner, gap ++ ':' :: value) ∧ key = c :: inner ∧
        (∀ d ∈ gap, isBlank d) ∧ IsValuePart value := by
  rw [splitKey?, if_pos hc]
  constructor
  · intro h
    obtain ⟨⟨inner, after⟩, hclose, hafter⟩ := Option.bind_eq_some_iff.1 h
    simp only at hafter
    split at hafter
    · next found htrim =>
      split_ifs at hafter with hvalue
      cases hafter
      obtain ⟨gap, rfl, hgap, -⟩ := trimLeft_eq.1 htrim
      exact ⟨inner, gap, hclose, rfl, hgap, atValue_iff.1 hvalue⟩
    · cases hafter
  · rintro ⟨inner, gap, hclose, rfl, hgap, hvalue⟩
    have hcolon : ∀ d, (':' :: value).head? = some d → isBlank d = false := by
      rintro d ⟨⟩
      rfl
    have htrim : trimLeft (gap ++ ':' :: value) = ':' :: value :=
      trimLeft_eq.2 ⟨gap, rfl, hgap, hcolon⟩
    refine Option.bind_eq_some_iff.2 ⟨(inner, gap ++ ':' :: value), hclose, ?_⟩
    simp [htrim, atValue_iff.2 hvalue]

theorem head?_gap_ne_quote {gap value : List Char} (hgap : ∀ d ∈ gap, isBlank d) :
    (gap ++ ':' :: value).head? ≠ some '\'' := by
  cases gap with
  | nil => simp
  | cons d gap =>
    intro h
    cases h
    exact absurd (hgap _ List.mem_cons_self) (by decide)

/-- A text that starts with a quote is split behind a complete quoted scalar. -/
theorem splitKey?_of_quote {c : Char} {rest key value : List Char} (hc : c = '"' ∨ c = '\'') :
    splitKey? (c :: rest) = some (key, value) ↔
      ∃ gap, c :: rest = key ++ gap ++ ':' :: value ∧ (∀ d ∈ gap, isBlank d) ∧
        IsValuePart value ∧ IsQuoted key := by
  rw [splitKey?_quoted hc]
  constructor
  · rintro ⟨inner, gap, hclose, rfl, hgap, hvalue⟩
    obtain ⟨body, hbody, rfl, rfl, -⟩ := closeQuote?_eq_some.1 hclose
    exact ⟨gap, by simp, hgap, hvalue, c, body, hc, hbody, rfl⟩
  · rintro ⟨gap, heq, hgap, hvalue, quote, body, -, hbody, rfl⟩
    obtain ⟨rfl, rfl⟩ := List.cons.inj heq
    refine ⟨body ++ [c], gap, closeQuote?_eq_some.2 ⟨body, hbody, rfl, by simp, ?_⟩, rfl, hgap,
      hvalue⟩
    -- a blank or the colon comes behind the closing quote, so it is not the first of two
    rintro rfl
    exact head?_gap_ne_quote hgap

/-- Any other text is split at its first colon that a value may follow, unless an indicator starts
it. -/
theorem splitKey?_of_not_quote {c : Char} {rest key value : List Char}
    (hc : ¬ (c = '"' ∨ c = '\'')) :
    splitKey? (c :: rest) = some (key, value) ↔
      ∃ gap, c :: rest = key ++ gap ++ ':' :: value ∧ (∀ d ∈ gap, isBlank d) ∧
        IsValuePart value ∧ StartsPlain (c :: rest) key gap := by
  rw [splitKey?, if_neg hc]
  by_cases hnone : startsNoKey c = true
  · rw [if_pos hnone]
    constructor
    · intro h
      cases h
    · rintro ⟨-, -, -, -, ⟨_, ⟨⟩, -, -, hsome⟩, -, -⟩
      rw [hnone] at hsome
      cases hsome
  · rw [if_neg hnone, Option.map_eq_some_iff]
    constructor
    · rintro ⟨⟨before, value⟩, hsplit, hkey⟩
      cases hkey
      obtain ⟨htext, hvalue, hcolon⟩ := splitColon?_eq_some.1 hsplit
      obtain ⟨gap, hbefore, hgap, hlast⟩ := trimRight_eq.1 (rfl : trimRight before = _)
      rw [hbefore] at htext hcolon
      refine ⟨gap, htext, hgap, hvalue, ⟨c, rfl, ?_, ?_, by simpa using hnone⟩, hlast, hcolon⟩
      · exact fun h => hc (.inl h)
      · exact fun h => hc (.inr h)
    · rintro ⟨gap, htext, hgap, hvalue, -, hlast, hcolon⟩
      have htrim : trimRight (key ++ gap) = key := trimRight_eq.2 ⟨gap, rfl, hgap, hlast⟩
      exact ⟨_, splitColon?_eq_some.2 ⟨htext, hvalue, hcolon⟩, congrArg (·, value) htrim⟩

/-- **A text is split into a key and a value where the key ends, and nowhere else.** It is the key,
blanks, a colon and the value, which is empty or starts with a space. The key is a complete quoted
scalar, or else a plain key whose colon is the first that a value may follow. The scan by offsets
ends without a fault, with the same key and value. -/
theorem split_iff_key_ends (text key value : List Char) :
    Scan.splitKey text = ended (splitKey? text) ∧
      (splitKey? text = some (key, value) ↔
        ∃ gap, text = key ++ gap ++ ':' :: value ∧ (∀ c ∈ gap, isBlank c) ∧ IsValuePart value ∧
          (IsQuoted key ∨ StartsPlain text key gap)) := by
  refine ⟨Scan.splitKey_eq text, ?_⟩
  cases text with
  | nil => simp [splitKey?]
  | cons c rest =>
    by_cases hc : c = '"' ∨ c = '\''
    · rw [splitKey?_of_quote hc]
      have hplain (gap : List Char) : ¬ StartsPlain (c :: rest) key gap := by
        rintro ⟨⟨_, ⟨⟩, hdouble, hsingle, -⟩, -, -⟩
        exact hc.elim hdouble hsingle
      simp [hplain]
    · rw [splitKey?_of_not_quote hc]
      constructor
      · rintro ⟨gap, htext, hgap, hvalue, hplain⟩
        exact ⟨gap, htext, hgap, hvalue, .inr hplain⟩
      · rintro ⟨gap, htext, hgap, hvalue, ⟨quote, body, hquote, -, rfl⟩ | hplain⟩
        · obtain ⟨rfl, -⟩ := List.cons.inj htext
          exact absurd hquote hc
        · exact ⟨gap, htext, hgap, hvalue, hplain⟩

-- the key holds a quote, a colon before a space, and a backslash before its last quote
example : splitKey? ['"', '\\', '"', ':', ' ', '\\', '\\', '"', ' ', ':', ' ', 'x'] =
    some (['"', '\\', '"', ':', ' ', '\\', '\\', '"'], [' ', 'x']) := by decide

end OperatorBundle.Layout
