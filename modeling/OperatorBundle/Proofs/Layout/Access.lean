import Mathlib.Data.List.Basic
import Mathlib.Tactic.Common
import OperatorBundle.Text.Lines

/-!
Accesses to texts by byte and to lines by number. An offset has to lie within its text and between
two characters, lines have to be there and in order, and no number goes below zero: an access that
breaks one of these faults, and so does every scan that makes it. A scan that makes none of them may
still find nothing.

* `cutAt_eq`, `textAfter_eq`, `textBefore_eq`, `withByte_eq`, `lineAt_eq`, `linesBetween_eq`: when
  an access is sound, and what it then gives.
* `difference_of_le`: a number of bytes that is not below zero.
-/

namespace OperatorBundle.Layout

open OperatorBundle.Text

/-! ### Bytes -/

/-- The bytes of a text in UTF-8. -/
def bytes (text : List Char) : List UInt8 := text.flatMap String.utf8EncodeChar

/-- The number of bytes of a text. -/
def size (text : List Char) : Nat := (bytes text).length

@[simp] theorem bytes_nil : bytes [] = [] := rfl

@[simp] theorem bytes_append (text more : List Char) :
    bytes (text ++ more) = bytes text ++ bytes more := List.flatMap_append

theorem bytes_cons (c : Char) (rest : List Char) :
    bytes (c :: rest) = String.utf8EncodeChar c ++ bytes rest := List.flatMap_cons

@[simp] theorem size_nil : size [] = 0 := rfl

@[simp] theorem size_append (text more : List Char) :
    size (text ++ more) = size text + size more := by
  simp [size]

@[simp] theorem size_cons (c : Char) (rest : List Char) :
    size (c :: rest) = c.utf8Size + size rest := by
  simp [size, bytes_cons]

theorem size_eq_length {text : List Char} (h : ∀ c ∈ text, c.utf8Size = 1) :
    size text = text.length := by
  induction text with
  | nil => rfl
  | cons c rest ih =>
    obtain ⟨hc, hrest⟩ := List.forall_mem_cons.1 h
    rw [size_cons, hc, ih hrest, List.length_cons, Nat.add_comm]

theorem size_spaces (n : Nat) : size (spaces n) = n := by
  rw [size_eq_length, spaces, List.length_replicate]
  intro c hc
  rw [List.eq_of_mem_replicate hc]
  rfl

/-! ### Scans -/

/-- How an access fails: at an offset that is past the end of its text or within a character, at
lines that are not there or not in order, or at a number below zero. -/
inductive AccessFault
  | offset
  | lines
  | difference
  deriving DecidableEq

/-- A scan, which may find nothing. -/
abbrev Scan (α : Type) : Type := OptionT (Except AccessFault) α

namespace Scan

variable {α β : Type}

/-- A scan that ends without a fault. -/
def ended (result : Option α) : Scan α := OptionT.mk (.ok result)

/-- A scan that makes an access that fails. -/
def fault (cause : AccessFault) : Scan α := OptionT.mk (.error cause)

/-- What a scan finds, if anything. -/
def attempt (scan : Scan α) : Scan (Option α) := OptionT.lift scan.run

@[simp] theorem pure_eq (a : α) : (pure a : Scan α) = ended (some a) := rfl

@[simp] theorem failure_eq : (failure : Scan α) = ended none := rfl

@[simp] theorem some_bind (a : α) (next : α → Scan β) : (ended (some a) >>= next) = next a := rfl

@[simp] theorem none_bind (next : α → Scan β) : (ended none >>= next) = ended none := rfl

@[simp] theorem attempt_ended (result : Option α) :
    (ended result).attempt = ended (some result) := rfl

@[simp] theorem fault_bind (cause : AccessFault) (next : α → Scan β) :
    (fault cause >>= next) = fault cause := rfl

theorem ended_inj {result other : Option α} : ended result = ended other ↔ result = other := by
  refine ⟨fun h => ?_, congrArg ended⟩
  exact Except.ok.inj (congrArg OptionT.run h)

theorem fault_ne_ended {cause : AccessFault} {result : Option α} : fault cause ≠ ended result := by
  intro h
  cases congrArg OptionT.run h

theorem ended_or_fault (scan : Scan α) :
    (∃ result, scan = ended result) ∨ ∃ cause, scan = fault cause := by
  cases hrun : scan.run with
  | error cause => exact .inr ⟨cause, hrun⟩
  | ok result => exact .inl ⟨result, hrun⟩

/-- What two scans find, one after the other. -/
theorem bind_eq_some {scan : Scan α} {next : α → Scan β} {b : β} :
    (scan >>= next) = ended (some b) ↔
      ∃ a, scan = ended (some a) ∧ next a = ended (some b) := by
  constructor
  · intro h
    rcases scan.ended_or_fault with ⟨_ | a, rfl⟩ | ⟨cause, rfl⟩
    · rw [none_bind, ended_inj] at h
      cases h
    · exact ⟨a, rfl, h⟩
    · rw [fault_bind] at h
      exact absurd h fault_ne_ended
  · rintro ⟨a, rfl, h⟩
    exact h

/-- Scans that end without a fault, one after the other. -/
theorem ended_bind (result : Option α) (next : α → Option β) :
    (ended result >>= fun a => ended (next a)) = ended (result.bind next) := by
  cases result <;> rfl

end Scan

open Scan

/-! ### Offsets -/

/-- The two parts of a text at an offset in bytes, if it lies between two characters. -/
def splitAtByte? : Nat → List Char → Option (List Char × List Char)
  | 0, text => some ([], text)
  | _ + 1, [] => none
  | n + 1, c :: rest =>
    if c.utf8Size ≤ n + 1 then
      (splitAtByte? (n + 1 - c.utf8Size) rest).map fun (before, after) => (c :: before, after)
    else none

/-- The two parts of a text at an offset. -/
def cutAt (offset : Nat) (text : List Char) : Scan (List Char × List Char) :=
  match splitAtByte? offset text with
  | some parts => pure parts
  | none => fault .offset

/-- The text from an offset on. -/
def textAfter (offset : Nat) (text : List Char) : Scan (List Char) := do
  let (_, after) ← cutAt offset text
  pure after

/-- The text up to an offset. -/
def textBefore (offset : Nat) (text : List Char) : Scan (List Char) := do
  let (before, _) ← cutAt offset text
  pure before

/-- The text with a character in place of the byte at an offset. -/
def withByte (offset : Nat) (c : Char) (text : List Char) : Scan (List Char) := do
  let (before, rest) ← cutAt offset text
  let (_, after) ← cutAt 1 rest
  pure (before ++ c :: after)

/-- The difference of two numbers of bytes. -/
def difference (n m : Nat) : Scan Nat := if m ≤ n then pure (n - m) else fault .difference

theorem splitAtByte?_eq_some {offset : Nat} {text before after : List Char} :
    splitAtByte? offset text = some (before, after) ↔
      text = before ++ after ∧ size before = offset := by
  induction text generalizing offset before with
  | nil =>
    cases offset with
    | zero =>
      cases before <;> simp [splitAtByte?, eq_comm]
    | succ n => cases before <;> simp [splitAtByte?]
  | cons c rest ih =>
    have hpositive := c.utf8Size_pos
    cases offset with
    | zero =>
      cases before with
      | nil => simp [splitAtByte?]
      | cons d more =>
        have := d.utf8Size_pos
        simp [splitAtByte?]
        omega
    | succ n =>
      rw [splitAtByte?]
      split_ifs with hfits
      · cases before with
        | nil => simp
        | cons d more =>
          simp only [Option.map_eq_some_iff, Prod.mk.injEq, Prod.exists, List.cons_append,
            List.cons.injEq, size_cons]
          constructor
          · rintro ⟨found, others, hfound, ⟨rfl, rfl⟩, rfl⟩
            obtain ⟨hrest, hsize⟩ := ih.1 hfound
            exact ⟨⟨rfl, hrest⟩, by omega⟩
          · rintro ⟨⟨rfl, hrest⟩, hsize⟩
            exact ⟨more, after, ih.2 ⟨hrest, by omega⟩, ⟨rfl, rfl⟩, rfl⟩
      · cases before with
        | nil => simp
        | cons d more =>
          simp only [List.cons_append, List.cons.injEq, size_cons, false_iff]
          rintro ⟨⟨rfl, -⟩, hsize⟩
          omega

/-- **A text is cut at an offset within it, between two characters.** -/
theorem cutAt_eq {offset : Nat} {text before after : List Char} :
    cutAt offset text = ended (some (before, after)) ↔
      text = before ++ after ∧ size before = offset := by
  rw [← splitAtByte?_eq_some, cutAt]
  cases splitAtByte? offset text with
  | none => simp [fault_ne_ended]
  | some parts => simp [ended_inj]

theorem textAfter_eq {offset : Nat} {text after : List Char} :
    textAfter offset text = ended (some after) ↔
      ∃ before, text = before ++ after ∧ size before = offset := by
  rw [textAfter, bind_eq_some]
  constructor
  · rintro ⟨⟨before, after'⟩, hcut, hafter⟩
    obtain rfl : after' = after := Option.some.inj (ended_inj.1 hafter)
    exact ⟨before, cutAt_eq.1 hcut⟩
  · rintro ⟨before, hcut⟩
    exact ⟨(before, after), cutAt_eq.2 hcut, rfl⟩

example : textAfter 2 ['é', 'a'] = ended (some ['a']) ∧ textAfter 1 ['é', 'a'] = fault .offset :=
  ⟨rfl, rfl⟩

theorem textBefore_eq {offset : Nat} {text before : List Char} :
    textBefore offset text = ended (some before) ↔
      ∃ after, text = before ++ after ∧ size before = offset := by
  rw [textBefore, bind_eq_some]
  constructor
  · rintro ⟨⟨before', after⟩, hcut, hbefore⟩
    obtain rfl : before' = before := Option.some.inj (ended_inj.1 hbefore)
    exact ⟨after, cutAt_eq.1 hcut⟩
  · rintro ⟨after, hcut⟩
    exact ⟨(before, after), cutAt_eq.2 hcut, rfl⟩

/-- A text of one byte is one character. -/
theorem exists_of_size_eq_one {text : List Char} (h : size text = 1) :
    ∃ c, text = [c] ∧ c.utf8Size = 1 := by
  cases text with
  | nil => cases h
  | cons c more =>
    have hc := c.utf8Size_pos
    rw [size_cons] at h
    cases more with
    | nil => exact ⟨c, rfl, by simpa using h⟩
    | cons d others =>
      have hd := d.utf8Size_pos
      rw [size_cons] at h
      omega

/-- **A byte is replaced if it is a character of its own.** -/
theorem withByte_eq {offset : Nat} {c : Char} {text out : List Char} :
    withByte offset c text = ended (some out) ↔
      ∃ before d after, text = before ++ d :: after ∧ size before = offset ∧ d.utf8Size = 1 ∧
        out = before ++ c :: after := by
  rw [withByte, bind_eq_some]
  constructor
  · rintro ⟨⟨before, rest⟩, hcut, hnext⟩
    obtain ⟨⟨byte, after⟩, hbyte, hout⟩ := bind_eq_some.1 hnext
    obtain ⟨rfl, hsize⟩ := cutAt_eq.1 hcut
    obtain ⟨rfl, hone⟩ := cutAt_eq.1 hbyte
    obtain ⟨d, rfl, hd⟩ := exists_of_size_eq_one hone
    exact ⟨before, d, after, rfl, hsize, hd, (Option.some.inj (ended_inj.1 hout)).symm⟩
  · rintro ⟨before, d, after, rfl, hsize, hd, rfl⟩
    refine ⟨(before, d :: after), cutAt_eq.2 ⟨rfl, hsize⟩, bind_eq_some.2 ?_⟩
    exact ⟨([d], after), cutAt_eq.2 ⟨rfl, by simpa using hd⟩, rfl⟩

theorem difference_of_le {n m : Nat} (h : m ≤ n) : difference n m = ended (some (n - m)) := by
  rw [difference, if_pos h]
  rfl

/-! ### Lines -/

/-- A line by its number. -/
def lineAt (lines : List Line) (number : Nat) : Scan Line :=
  match lines[number]? with
  | some line => pure line
  | none => fault .lines

/-- The lines from one number up to another. -/
def linesBetween (lines : List Line) (start stop : Nat) : Scan (List Line) :=
  if start ≤ stop ∧ stop ≤ lines.length then pure ((lines.take stop).drop start) else fault .lines

theorem lineAt_eq {lines : List Line} {number : Nat} {line : Line} :
    lineAt lines number = ended (some line) ↔ lines[number]? = some line := by
  unfold lineAt
  split
  · rename_i found hfound
    rw [hfound, pure_eq, ended_inj]
  · rename_i hnone
    simp [hnone, fault_ne_ended]

/-- **Lines are taken between numbers that are in order and no greater than there are lines.** -/
theorem linesBetween_eq {lines part : List Line} {start stop : Nat} :
    linesBetween lines start stop = ended (some part) ↔
      ∃ before after, lines = before ++ part ++ after ∧ before.length = start ∧
        before.length + part.length = stop := by
  unfold linesBetween
  constructor
  · intro h
    split_ifs at h with hrange
    · obtain rfl := Option.some.inj (ended_inj.1 h)
      refine ⟨lines.take start, lines.drop stop, ?_, ?_, ?_⟩
      · have htake : (lines.take stop).take start = lines.take start := by
          rw [List.take_take, Nat.min_eq_left hrange.1]
        rw [← htake, List.take_append_drop, List.take_append_drop]
      · simp
        omega
      · simp
        omega
    · exact absurd h fault_ne_ended
  · rintro ⟨before, after, rfl, rfl, rfl⟩
    rw [if_pos (by simp)]
    have htake : (before ++ part ++ after).take (before.length + part.length) = before ++ part :=
      List.take_left' (by simp)
    rw [htake, List.drop_left]
    rfl

end OperatorBundle.Layout
