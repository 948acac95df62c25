import Mathlib.Tactic.Common
import OperatorBundle.Text.Digits
import OperatorBundle.Text.Quoted

/-!
Quoted texts are read back. Numerals are read as the numbers that they write, so an escaped
character is told by its code; and what is written for a character shows where it ends, so a text is
read from its quotes whatever follows them.
-/

namespace OperatorBundle.Text

/-! ### Numerals -/

theorem natAfter?_append (base n : Nat) (cs more : List Char) :
    natAfter? base n (cs ++ more) = (natAfter? base n cs).bind (natAfter? base · more) := by
  induction cs generalizing n with
  | nil => rfl
  | cons c rest ih =>
    rw [List.cons_append, natAfter?, natAfter?]
    cases digitIn? base c with
    | none => rfl
    | some digit => exact ih _

theorem digitIn?_digitChar {base digit : Nat} (hbase : base ≤ 16) (h : digit < base) :
    digitIn? base digit.digitChar = some digit := by
  have hall : ∀ d < 16, digitValue? d.digitChar = some d := by decide
  rw [digitIn?, hall digit (Nat.lt_of_lt_of_le h hbase), Option.filter_some,
    if_pos (by simpa using h)]

/-- A numeral is read as the number that it writes. -/
theorem natAfter?_toDigits {base : Nat} (hone : 1 < base) (hbase : base ≤ 16) (n : Nat) :
    natAfter? base 0 (Nat.toDigits base n) = some n := by
  induction n using Nat.strongRecOn with
  | _ n ih =>
    rcases Nat.lt_or_ge n base with hlt | hge
    · rw [Nat.toDigits_of_lt_base hlt, natAfter?, digitIn?_digitChar hbase hlt]
      simp [natAfter?]
    · -- the digits before the last one write the quotient
      have hquotient := ih (n / base) (Nat.div_lt_self (by omega) hone)
      rw [Nat.toDigits_of_base_le hone hge, natAfter?_append, hquotient, Option.bind_some,
        natAfter?, digitIn?_digitChar hbase (Nat.mod_lt n (by omega))]
      simp [natAfter?, Nat.div_add_mod']

theorem nat?_toDigits {base : Nat} (hone : 1 < base) (hbase : base ≤ 16) (n : Nat) :
    nat? base (Nat.toDigits base n) = some n := by
  rw [nat?, if_neg (by simp), natAfter?_toDigits hone hbase]

/-- A numeral is made of digits. -/
theorem digitIn?_of_mem_toDigits {base n : Nat} {c : Char} (hone : 1 < base) (hbase : base ≤ 16)
    (h : c ∈ Nat.toDigits base n) : (digitIn? base c).isSome := by
  induction n using Nat.strongRecOn with
  | _ n ih =>
    rcases Nat.lt_or_ge n base with hlt | hge
    · rw [Nat.toDigits_of_lt_base hlt, List.mem_singleton] at h
      rw [h, digitIn?_digitChar hbase hlt]
      rfl
    · rw [Nat.toDigits_of_base_le hone hge, List.mem_append, List.mem_singleton] at h
      rcases h with h | rfl
      · exact ih (n / base) (Nat.div_lt_self (by omega) hone) h
      · rw [digitIn?_digitChar hbase (Nat.mod_lt n (by omega))]
        rfl

/-! ### Characters -/

/-- The character that a letter after a backslash stands for. -/
def escapedBy? (letter : Char) : Option Char :=
  [('0', '\x00'), ('t', '\t'), ('r', '\r'), ('n', '\n'), ('"', '"'), ('\\', '\\')].lookup letter

/-- The first character of a text between quotes, and what is written after it. -/
def unquotedChar? : List Char → Option (Char × List Char)
  | [] => none
  | '\\' :: 'u' :: '\x7b' :: rest =>
    match rest.dropWhile (· ≠ '\x7d') with
    | [] => none
    | _ :: more => (nat? 16 (rest.takeWhile (· ≠ '\x7d'))).map fun code => (Char.ofNat code, more)
  | '\\' :: letter :: rest => (escapedBy? letter).map fun c => (c, rest)
  | c :: rest => some (c, rest)

/-- A character is read from what is written for it. -/
theorem unquotedChar?_quotedChar (c : Char) (rest : List Char) :
    unquotedChar? (quotedChar c ++ rest) = some (c, rest) := by
  unfold quotedChar
  split_ifs with hnull htab hreturn hfeed hmark hcoded
  · subst hnull; rfl
  · subst htab; rfl
  · subst hreturn; rfl
  · subst hfeed; rfl
  · rw [Bool.or_eq_true, decide_eq_true_eq, decide_eq_true_eq] at hmark
    rcases hmark with rfl | rfl <;> rfl
  · -- the closing brace is no digit, so it ends the code
    have hdigits : ∀ d ∈ Nat.toDigits 16 c.toNat, decide (d ≠ '\x7d') = true := by
      intro d hd
      have hsome := digitIn?_of_mem_toDigits (by decide) (by decide) hd
      rw [decide_eq_true_eq]
      rintro rfl
      cases hsome
    have hends : ∀ before : List Char, before ++ ['\x7d'] ++ rest = before ++ '\x7d' :: rest := by
      simp
    have hcode : unquotedChar? ('\\' :: 'u' :: '\x7b' ::
        (Nat.toDigits 16 c.toNat ++ '\x7d' :: rest)) = some (Char.ofNat c.toNat, rest) := by
      rw [unquotedChar?, List.dropWhile_append_of_pos hdigits, List.takeWhile_append_of_pos hdigits]
      simp [nat?_toDigits]
    rw [hends, Char.ofNat_toNat] at *
    exact hcode
  · rw [Bool.or_eq_true, decide_eq_true_eq, decide_eq_true_eq, not_or] at hmark
    rw [List.singleton_append, unquotedChar?]
    · exact fun _ h => absurd h hmark.2
    · exact fun _ _ h => absurd h hmark.2

theorem length_of_unquotedChar? {text rest : List Char} {c : Char}
    (h : unquotedChar? text = some (c, rest)) : rest.length < text.length := by
  unfold unquotedChar? at h
  split at h
  · cases h
  · rename_i code
    have hlength := (code.dropWhile_sublist (· ≠ '\x7d')).length_le
    split at h
    · cases h
    · rename_i brace more hdrop
      obtain ⟨n, -, hn⟩ := Option.map_eq_some_iff.1 h
      obtain rfl : more = rest := congrArg Prod.snd hn
      rw [hdrop, List.length_cons] at hlength
      simp only [List.length_cons]
      omega
  · rename_i letter more _
    obtain ⟨d, -, hd⟩ := Option.map_eq_some_iff.1 h
    obtain rfl : more = rest := congrArg Prod.snd hd
    simp only [List.length_cons]
    omega
  · obtain ⟨-, rfl⟩ := Prod.mk.inj (Option.some.inj h)
    simp

/-! ### Texts -/

/-- The text up to its closing quote, and what follows it. -/
def unquoted? : List Char → Option (List Char × List Char)
  | [] => none
  | '"' :: rest => some ([], rest)
  | c :: rest =>
    match _h : unquotedChar? (c :: rest) with
    | none => none
    | some (d, more) => (unquoted? more).map fun (read, after) => (d :: read, after)
termination_by text => text.length
decreasing_by exact length_of_unquotedChar? ‹_›

theorem unquoted?_of_unquotedChar? {text more : List Char} {d : Char}
    (hquote : text.head? ≠ some '"') (h : unquotedChar? text = some (d, more)) :
    unquoted? text = (unquoted? more).map fun (read, after) => (d :: read, after) := by
  cases text with
  | nil => cases h
  | cons c rest =>
    rw [unquoted?]
    · split
      · rename_i hnone
        rw [h] at hnone
        cases hnone
      · rename_i found after hfound
        obtain ⟨rfl, rfl⟩ := Prod.mk.inj (Option.some.inj (h.symm.trans hfound))
        rfl
    · rintro rfl
      exact hquote rfl

/-- No character is written with a quote first, so the closing quote is told from it. -/
theorem head?_quotedChar (c : Char) (rest : List Char) :
    (quotedChar c ++ rest).head? ≠ some '"' := by
  unfold quotedChar
  split_ifs with hnull htab hreturn hfeed hmark hcoded
  all_goals simp_all

/-- **A text is read from its quotes.** -/
theorem unquoted?_quoted (cs rest : List Char) :
    unquoted? (cs.flatMap quotedChar ++ '"' :: rest) = some (cs, rest) := by
  induction cs with
  | nil => rw [List.flatMap_nil, List.nil_append, unquoted?]
  | cons c more ih =>
    rw [List.flatMap_cons, List.append_assoc,
      unquoted?_of_unquotedChar? (head?_quotedChar c _) (unquotedChar?_quotedChar c _), ih]
    rfl

end OperatorBundle.Text
