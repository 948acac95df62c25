import Mathlib.Data.Nat.Digits.Defs
import Mathlib.Tactic.Common
import Mathlib.Tactic.Positivity
import Mathlib.Tactic.Ring
import OperatorBundle.Number.Integer
import OperatorBundle.Proofs.Text.Trimming

/-!
What the readers of bounded integers accept. A numeral is a sign and digits between blanks; it is
read as the number of its digits if that lies in the range, however many zeros lead it.

* `readUnsigned32_eq_ok`: the texts that are read as a number below 2³².
* `readSigned64_eq_ok`: the texts that are read as a number from -2⁶³ to 2⁶³ - 1.
-/

namespace OperatorBundle.Number

open OperatorBundle.Text

/-! ### Numerals -/

/-- The number that decimal digits write. -/
def numberOf (digits : List Char) : Nat :=
  Nat.ofDigits 10 (digits.reverse.map fun c => c.toNat - '0'.toNat)

/-- A text of a sign and one or more ASCII digits, with white space around them. -/
def Writes (text : String) (sign digits : List Char) : Prop :=
  ∃ before after, text.toList = before ++ (sign ++ digits) ++ after ∧
    (∀ c ∈ before, isBlank c) ∧ (∀ c ∈ after, isBlank c) ∧ digits ≠ [] ∧ ∀ c ∈ digits, isDigit c

/-- A text that writes a number below 2³², which may have a plus sign. -/
def IsUnsigned32 (text : String) (n : Nat) : Prop :=
  ∃ sign digits, Writes text sign digits ∧ (sign = [] ∨ sign = ['+']) ∧ n = numberOf digits ∧
    n < 2 ^ 32

/-- A text that writes a number of 64 bits, which may have a sign. -/
def IsSigned64 (text : String) (n : Int) : Prop :=
  ∃ sign digits, Writes text sign digits ∧
    ((sign = [] ∨ sign = ['+']) ∧ n = numberOf digits ∨ sign = ['-'] ∧ n = -numberOf digits) ∧
    -2 ^ 63 ≤ n ∧ n < 2 ^ 63

/-! ### Digits -/

theorem digitIn?_ten (c : Char) :
    digitIn? 10 c = if isDigit c then some (c.toNat - '0'.toNat) else none := by
  unfold digitIn? digitValue? isDigit
  by_cases hdigit : '0' ≤ c ∧ c ≤ '9'
  · have hsmall : c.toNat - '0'.toNat < 10 := by
      have hnine : c.toNat ≤ '9'.toNat := hdigit.2
      have h0 : '0'.toNat = 48 := rfl
      have h9 : '9'.toNat = 57 := rfl
      omega
    rw [if_pos hdigit, Option.filter_some, if_pos (by simpa using hsmall)]
    simp [hdigit]
  · -- a letter is worth ten or more
    have hnot : ('0' ≤ c && c ≤ '9') = false := by simpa using hdigit
    rw [if_neg hdigit, hnot]
    simp only [Bool.false_eq_true, if_false]
    split_ifs <;> simp

theorem numberOf_cons (c : Char) (rest : List Char) :
    numberOf (c :: rest) = (c.toNat - '0'.toNat) * 10 ^ rest.length + numberOf rest := by
  unfold numberOf
  rw [List.reverse_cons, List.map_append, Nat.ofDigits_append]
  simp
  ring

/-- Digits behind a number that is within the limit. All that they lead to is within the limit if
the last of it is. -/
theorem boundedAfter_eq_ok {limit m n : Nat} {beyond : NumeralFault} {cs : List Char}
    (hm : m ≤ limit) :
    boundedAfter limit beyond m cs = .ok n ↔
      (∀ c ∈ cs, isDigit c) ∧ n = m * 10 ^ cs.length + numberOf cs ∧ n ≤ limit := by
  induction cs generalizing m with
  | nil =>
    have hzero : numberOf [] = 0 := rfl
    simp only [boundedAfter, Except.ok.injEq, List.not_mem_nil, false_implies, implies_true,
      true_and, List.length_nil, hzero]
    omega
  | cons c rest ih =>
    rw [boundedAfter, digitIn?_ten, List.forall_mem_cons, numberOf_cons]
    by_cases hdigit : isDigit c
    · simp only [hdigit, if_true, true_and, List.length_cons]
      set d := c.toNat - '0'.toNat
      have hnumber : m * 10 ^ (rest.length + 1) + (d * 10 ^ rest.length + numberOf rest) =
          (m * 10 + d) * 10 ^ rest.length + numberOf rest := by ring
      rw [hnumber]
      by_cases hlimit : limit < m * 10 + d
      · have hgrows : m * 10 + d ≤ (m * 10 + d) * 10 ^ rest.length :=
          Nat.le_mul_of_pos_right _ (by positivity)
        rw [if_pos hlimit]
        constructor
        · intro h
          cases h
        · rintro ⟨-, hn, hle⟩
          omega
      · rw [if_neg hlimit]
        exact ih (by omega)
    · simp [hdigit]

/-- One or more digits that write a number within the limit. -/
theorem bounded_eq_ok {limit n : Nat} {beyond : NumeralFault} {cs : List Char} :
    bounded limit beyond cs = .ok n ↔
      cs ≠ [] ∧ (∀ c ∈ cs, isDigit c) ∧ n = numberOf cs ∧ n ≤ limit := by
  unfold bounded
  cases cs with
  | nil => simp
  | cons c rest =>
    rw [if_neg (by simp), boundedAfter_eq_ok (Nat.zero_le limit)]
    simp

/-! ### Signs -/

theorem isBlank_of_isDigit {c : Char} (h : isDigit c) : isBlank c = false := by
  unfold isDigit at h
  rw [Bool.and_eq_true, decide_eq_true_eq, decide_eq_true_eq] at h
  have hlow : '0'.toNat ≤ c.toNat := h.1
  have hhigh : c.toNat ≤ '9'.toNat := h.2
  have h0 : '0'.toNat = 48 := rfl
  have h9 : '9'.toNat = 57 := rfl
  have hval : c.val.toNat = c.toNat := rfl
  simp only [isBlank, Bool.or_eq_false_iff, Bool.and_eq_false_iff, decide_eq_false_iff_not,
    UInt32.le_iff_toNat_le, ← UInt32.toNat_inj, hval]
  simp
  omega

/-- A text writes what is left when it is trimmed. -/
theorem writes_iff {text : String} {sign digits : List Char}
    (hsign : ∀ c ∈ sign, isBlank c = false) :
    Writes text sign digits ↔
      trim text.toList = sign ++ digits ∧ digits ≠ [] ∧ ∀ c ∈ digits, isDigit c := by
  constructor
  · rintro ⟨before, after, htext, hbefore, hafter, hne, hdigits⟩
    refine ⟨?_, hne, hdigits⟩
    -- neither a sign nor a digit is blank
    have hsolid : ∀ c ∈ sign ++ digits, isBlank c = false := by
      intro c hc
      rcases List.mem_append.1 hc with hc | hc
      · exact hsign c hc
      · exact isBlank_of_isDigit (hdigits c hc)
    rw [htext]
    apply trim_append hbefore hafter
    · simp [hne]
    · exact fun c hc => hsolid c (List.mem_of_head? hc)
    · exact fun c hc => hsolid c (List.mem_of_getLast? hc)
  · rintro ⟨htrim, hne, hdigits⟩
    obtain ⟨before, after, htext, hbefore, hafter⟩ := exists_blanks text.toList
    rw [htrim] at htext
    exact ⟨before, after, htext, hbefore, hafter, hne, hdigits⟩

/-- The digits behind a sign are read as the number that they write. -/
theorem bounded_of_trim {text : String} {sign digits : List Char} {limit n : Nat}
    {beyond : NumeralFault} (hsign : ∀ c ∈ sign, isBlank c = false)
    (htrim : trim text.toList = sign ++ digits) :
    bounded limit beyond digits = .ok n ↔
      Writes text sign digits ∧ n = numberOf digits ∧ n ≤ limit := by
  rw [bounded_eq_ok, writes_iff hsign]
  simp [htrim, and_assoc]

theorem ne_cons_of_isDigit {digits : List Char} (h : ∀ c ∈ digits, isDigit c) {sign : Char}
    (hsign : isDigit sign = false) (rest : List Char) : digits ≠ sign :: rest := by
  rintro rfl
  have := h sign (List.mem_cons_self ..)
  rw [hsign] at this
  cases this

theorem isBlank_plus : ∀ c ∈ ['+'], isBlank c = false := List.forall_mem_singleton.2 (by decide)

theorem isBlank_minus : ∀ c ∈ ['-'], isBlank c = false := List.forall_mem_singleton.2 (by decide)

/-- **The texts that are read as a number below 2³².** -/
theorem readUnsigned32_eq_ok {text : String} {n : Nat} :
    readUnsigned32 text = .ok n ↔ IsUnsigned32 text n := by
  have hlimit : n ≤ twoTo 32 - 1 ↔ n < 2 ^ 32 := by
    have : twoTo 32 = 2 ^ 32 := rfl
    omega
  constructor
  · intro h
    unfold readUnsigned32 at h
    split at h
    · cases h
    · next digits htrim =>
      obtain ⟨hwrites, hn, hle⟩ := (bounded_of_trim isBlank_plus htrim).1 h
      exact ⟨['+'], digits, hwrites, .inr rfl, hn, hlimit.1 hle⟩
    · obtain ⟨hwrites, hn, hle⟩ :=
        (bounded_of_trim (List.forall_mem_nil _) (List.nil_append _).symm).1 h
      exact ⟨[], _, hwrites, .inl rfl, hn, hlimit.1 hle⟩
  · rintro ⟨sign, digits, hwrites, rfl | rfl, hn, hlt⟩
    · obtain ⟨htrim, hne, hdigits⟩ := (writes_iff (List.forall_mem_nil _)).1 hwrites
      rw [List.nil_append] at htrim
      unfold readUnsigned32
      split
      · next hempty => exact absurd (htrim.symm.trans hempty) hne
      · next rest hplus =>
        exact absurd (htrim.symm.trans hplus) (ne_cons_of_isDigit hdigits rfl rest)
      · rw [htrim]
        exact bounded_eq_ok.2 ⟨hne, hdigits, hn, hlimit.2 hlt⟩
    · obtain ⟨htrim, hne, hdigits⟩ := (writes_iff isBlank_plus).1 hwrites
      unfold readUnsigned32
      rw [htrim]
      exact bounded_eq_ok.2 ⟨hne, hdigits, hn, hlimit.2 hlt⟩

theorem map_intCast_eq_ok {x : Except NumeralFault Nat} {f : Int → Int} {n : Int} :
    Except.map f (do return (← x : Nat)) = .ok n ↔ ∃ m : Nat, x = .ok m ∧ f m = n := by
  cases x <;> simp [Except.map, bind, Except.bind, pure, Except.pure]

/-- **The texts that are read as a number of 64 bits.** -/
theorem readSigned64_eq_ok {text : String} {n : Int} :
    readSigned64 text = .ok n ↔ IsSigned64 text n := by
  have htwo : twoTo 63 = 2 ^ 63 := rfl
  constructor
  · intro h
    unfold readSigned64 at h
    split at h
    · cases h
    · next digits htrim =>
      obtain ⟨m, hread, rfl⟩ := map_intCast_eq_ok.1 h
      obtain ⟨hwrites, rfl, hle⟩ := (bounded_of_trim isBlank_minus htrim).1 hread
      exact ⟨['-'], digits, hwrites, .inr ⟨rfl, rfl⟩, by omega, by omega⟩
    · next digits htrim =>
      obtain ⟨m, hread, rfl⟩ := map_intCast_eq_ok.1 h
      obtain ⟨hwrites, rfl, hle⟩ := (bounded_of_trim isBlank_plus htrim).1 hread
      exact ⟨['+'], digits, hwrites, .inl ⟨.inr rfl, rfl⟩, by omega, by omega⟩
    · obtain ⟨m, hread, rfl⟩ := map_intCast_eq_ok.1 h
      obtain ⟨hwrites, rfl, hle⟩ :=
        (bounded_of_trim (List.forall_mem_nil _) (List.nil_append _).symm).1 hread
      exact ⟨[], _, hwrites, .inl ⟨.inl rfl, rfl⟩, by omega, by omega⟩
  · rintro ⟨sign, digits, hwrites, ⟨rfl | rfl, hn⟩ | ⟨rfl, hn⟩, hlow, hhigh⟩
    · obtain ⟨htrim, hne, hdigits⟩ := (writes_iff (List.forall_mem_nil _)).1 hwrites
      rw [List.nil_append] at htrim
      unfold readSigned64
      split
      · next hempty => exact absurd (htrim.symm.trans hempty) hne
      · next rest hminus =>
        exact absurd (htrim.symm.trans hminus) (ne_cons_of_isDigit hdigits rfl rest)
      · next rest hplus =>
        exact absurd (htrim.symm.trans hplus) (ne_cons_of_isDigit hdigits rfl rest)
      · rw [htrim]
        refine map_intCast_eq_ok.2 ⟨numberOf digits, ?_, hn.symm⟩
        exact bounded_eq_ok.2 ⟨hne, hdigits, rfl, by omega⟩
    · obtain ⟨htrim, hne, hdigits⟩ := (writes_iff isBlank_plus).1 hwrites
      unfold readSigned64
      rw [htrim]
      refine map_intCast_eq_ok.2 ⟨numberOf digits, ?_, hn.symm⟩
      exact bounded_eq_ok.2 ⟨hne, hdigits, rfl, by omega⟩
    · obtain ⟨htrim, hne, hdigits⟩ := (writes_iff isBlank_minus).1 hwrites
      unfold readSigned64
      rw [htrim]
      refine map_intCast_eq_ok.2 ⟨numberOf digits, ?_, hn.symm⟩
      exact bounded_eq_ok.2 ⟨hne, hdigits, rfl, by omega⟩

end OperatorBundle.Number
