import OperatorBundle.Bundle.ServiceVersion
import OperatorBundle.Proofs.Build.Calendar
import OperatorBundle.Proofs.Text.Quoted

/-!
The time of a build as it is written into a service version. The text is read apart at its spaces,
its comma and its colon, and tells the minute of the calendar in which the second falls.

* `Minute.ofText?_text`: a minute is read from its text.
* `Bundle.time_of_build_exact`: which seconds have a text, and what it tells.
-/

namespace OperatorBundle

open OperatorBundle.Text

/-! ### Reading a time -/

namespace Minute

/-- The number of the month with a short name. -/
def monthNamed? : List Char → Option Nat
  | ['J', 'a', 'n'] => some 1
  | ['F', 'e', 'b'] => some 2
  | ['M', 'a', 'r'] => some 3
  | ['A', 'p', 'r'] => some 4
  | ['M', 'a', 'y'] => some 5
  | ['J', 'u', 'n'] => some 6
  | ['J', 'u', 'l'] => some 7
  | ['A', 'u', 'g'] => some 8
  | ['S', 'e', 'p'] => some 9
  | ['O', 'c', 't'] => some 10
  | ['N', 'o', 'v'] => some 11
  | ['D', 'e', 'c'] => some 12
  | _ => none

/-- The year that digits write, perhaps behind a sign. -/
def yearOf? : List Char → Option Int
  | '-' :: digits => (nat? 10 digits).map fun n : Nat => -(n : Int)
  | '+' :: digits => (nat? 10 digits).map fun n : Nat => (n : Int)
  | digits => (nat? 10 digits).map fun n : Nat => (n : Int)

/-- The minute that a text tells: the day, the name of the month, the year and a comma, and the time
of the day, with spaces between them. -/
def ofText? (text : String) : Option Minute :=
  match text.toList.splitOn ' ' with
  | [day, month, year, time] =>
    match year.splitOn ',', time.splitOn ':' with
    | [year, []], [hour, minute] => do
      let day ← nat? 10 day
      let month ← monthNamed? month
      let year ← yearOf? year
      let hour ← nat? 10 hour
      let minute ← nat? 10 minute
      return { year, month, day, hour, minute }
    | _, _ => none
  | _ => none

end Minute

/-! ### Numerals with zeros in front -/

theorem nat?_decimalPadded (width n : Nat) : nat? 10 (decimalPadded width n) = some n := by
  have hzeros (count : Nat) : natAfter? 10 0 (List.replicate count '0') = some 0 := by
    induction count with
    | zero => rfl
    | succ count ih => exact ih
  have hsome : decimalPadded width n ≠ [] := by
    simp [decimalPadded, decimal]
  rw [nat?, if_neg (by simpa using hsome), decimalPadded, natAfter?_append, hzeros,
    Option.bind_some]
  exact natAfter?_toDigits (by decide) (by decide) n

theorem not_mem_decimalPadded {c : Char} (h : digitIn? 10 c = none) (width n : Nat) :
    c ∉ decimalPadded width n := by
  intro hc
  rw [decimalPadded, List.mem_append] at hc
  rcases hc with hc | hc
  · rw [List.eq_of_mem_replicate hc] at h
    cases h
  · have hdigit := digitIn?_of_mem_toDigits (by decide) (by decide) hc
    rw [h] at hdigit
    cases hdigit

namespace Minute

theorem yearOf?_decimalPadded (n : Nat) : yearOf? (decimalPadded 4 n) = some (n : Int) := by
  unfold yearOf?
  split
  · next digits h =>
    have hminus : '-' ∉ decimalPadded 4 n := not_mem_decimalPadded rfl 4 n
    exact absurd (h ▸ List.mem_cons_self ..) hminus
  · next digits h =>
    have hplus : '+' ∉ decimalPadded 4 n := not_mem_decimalPadded rfl 4 n
    exact absurd (h ▸ List.mem_cons_self ..) hplus
  · rw [nat?_decimalPadded, Option.map_some]

theorem yearOf?_yearText (year : Int) : yearOf? (yearText year) = some year := by
  simp only [yearText]
  split_ifs with hnegative hlong
  · have hyear : -(year.natAbs : Int) = year := by omega
    rw [yearOf?, nat?_decimalPadded, Option.map_some, hyear]
  · have hyear : (year.natAbs : Int) = year := by omega
    rw [yearOf?, nat?_decimalPadded, Option.map_some, hyear]
  · have hyear : (year.natAbs : Int) = year := by omega
    rw [yearOf?_decimalPadded, hyear]

theorem not_mem_yearText {c : Char} (h : digitIn? 10 c = none) (hminus : c ≠ '-') (hplus : c ≠ '+')
    (year : Int) : c ∉ yearText year := by
  have hdigits := not_mem_decimalPadded h 4 year.natAbs
  simp only [yearText]
  split_ifs <;> simp [hdigits, hminus, hplus]

/-- The name of a month, as it is written. -/
def monthName (month : Nat) : List Char := ((monthNames[month - 1]?).getD "").toList

theorem monthNamed?_monthName {month : Nat} (h : 1 ≤ month ∧ month ≤ 12) :
    monthNamed? (monthName month) = some month ∧ ' ' ∉ monthName month := by
  obtain ⟨hlow, hhigh⟩ := h
  interval_cases month <;> exact ⟨rfl, by decide⟩

/-- **A minute is read from its text.** -/
theorem ofText?_text {m : Minute} (h : m.Valid) : ofText? m.text = some m := by
  obtain ⟨hname, hspace⟩ := monthNamed?_monthName h.month
  have hfields : m.text.toList = [' '].intercalate [decimalPadded 2 m.day, monthName m.month,
      yearText m.year ++ [','], decimalPadded 2 m.hour ++ ':' :: decimalPadded 2 m.minute] := by
    simp [text, monthName, List.intercalate]
  have hsplit : m.text.toList.splitOn ' ' = [decimalPadded 2 m.day, monthName m.month,
      yearText m.year ++ [','], decimalPadded 2 m.hour ++ ':' :: decimalPadded 2 m.minute] := by
    have hdigits (n : Nat) : ' ' ∉ decimalPadded 2 n := not_mem_decimalPadded rfl 2 n
    have hyear : ' ' ∉ yearText m.year := not_mem_yearText rfl (by decide) (by decide) _
    rw [hfields]
    apply List.splitOn_intercalate
    · simp [hdigits, hspace, hyear]
    · exact List.cons_ne_nil _ _
  have hyear : (yearText m.year ++ [',']).splitOn ',' = [yearText m.year, []] := by
    have hcomma : ',' ∉ yearText m.year := not_mem_yearText rfl (by decide) (by decide) _
    have hparts : yearText m.year ++ [','] = [','].intercalate [yearText m.year, []] := by
      simp [List.intercalate]
    rw [hparts]
    apply List.splitOn_intercalate
    · simp [hcomma]
    · exact List.cons_ne_nil _ _
  have htime : (decimalPadded 2 m.hour ++ ':' :: decimalPadded 2 m.minute).splitOn ':' =
      [decimalPadded 2 m.hour, decimalPadded 2 m.minute] := by
    have hdigits (n : Nat) : ':' ∉ decimalPadded 2 n := not_mem_decimalPadded rfl 2 n
    have hparts : decimalPadded 2 m.hour ++ ':' :: decimalPadded 2 m.minute =
        [':'].intercalate [decimalPadded 2 m.hour, decimalPadded 2 m.minute] := by
      simp [List.intercalate]
    rw [hparts]
    apply List.splitOn_intercalate
    · simp [hdigits]
    · exact List.cons_ne_nil _ _
  simp only [ofText?, hsplit, hyear, htime, nat?_decimalPadded, hname, yearOf?_yearText]
  rfl

example : ofText? "29 Feb 2000, 23:59" = some ⟨2000, 2, 29, 23, 59⟩ := by decide

end Minute

/-! ### The time of a build -/

/-- Whether the minute in which a second falls is in a year that dates are written for. -/
def HasDate (seconds : Int) : Prop :=
  ∃ m, Numbered (seconds.fdiv 60) m ∧ -262143 ≤ m.year ∧ m.year ≤ 262142

theorem hasDate_iff {seconds : Int} :
    HasDate seconds ↔ firstSecond ≤ seconds ∧ seconds ≤ lastSecond := by
  have hvalid := Minute.valid_ofSeconds seconds
  have hnumber := Minute.number_ofSeconds seconds
  have hyears := @Minute.year_mem_iff _ hvalid (-262143) 262142
  have hfirst : Minute.dayNumber (-262143) 1 1 * 1440 * 60 = firstSecond := by decide
  have hlast : Minute.dayNumber (262142 + 1) 1 1 * 1440 * 60 = lastSecond + 1 := by decide
  have hdate : HasDate seconds ↔ -262143 ≤ (Minute.ofSeconds seconds).year ∧
      (Minute.ofSeconds seconds).year ≤ 262142 := by
    constructor
    · rintro ⟨m, hm, hyear⟩
      rwa [(numbered_ofSeconds seconds).unique hm]
    · exact fun hyear => ⟨_, numbered_ofSeconds seconds, hyear⟩
  rw [hdate, hyears]
  omega

namespace Bundle

/-- The operation that writes the time of a build which took place at a second. -/
def stampAt (settings : Settings) (inputs : ReleaseInputs) (seconds : Int) :
    Except InputError (List Operation) :=
  stamp { settings with stampCreatedAt := true } { inputs with timestamp := some seconds }

variable {settings : Settings} {inputs : ReleaseInputs} {seconds : Int}

theorem stampAt_of_hasDate (h : HasDate seconds) : stampAt settings inputs seconds =
    .ok [.setText (versionMark "createdAt") (Minute.ofSeconds seconds).text] := by
  simp [stampAt, stamp, timeStamp?, hasDate_iff.1 h]

theorem stampAt_of_not_hasDate (h : ¬HasDate seconds) :
    stampAt settings inputs seconds = .error (.invalidTimestamp seconds) := by
  rw [hasDate_iff] at h
  simp [stampAt, stamp, timeStamp?, h]

/-- **The time of a build is told to the minute.** A second outside the years that dates are written
for is refused. Any other has a text that is read as the minute in which it falls, and two seconds
have one text if and only if they fall in one minute. -/
theorem time_of_build_exact (settings : Settings) (inputs : ReleaseInputs) :
    (∀ seconds, stampAt settings inputs seconds = .error (.invalidTimestamp seconds) ↔
      ¬HasDate seconds) ∧
    (∀ seconds, HasDate seconds → ∃ text m,
      stampAt settings inputs seconds = .ok [.setText (versionMark "createdAt") text] ∧
        Minute.ofText? text = some m ∧ Numbered (seconds.fdiv 60) m) ∧
    ∀ seconds other text text',
      stampAt settings inputs seconds = .ok [.setText (versionMark "createdAt") text] →
      stampAt settings inputs other = .ok [.setText (versionMark "createdAt") text'] →
      (text = text' ↔ seconds.fdiv 60 = other.fdiv 60) := by
  have hdate {seconds : Int} {text : String}
      (h : stampAt settings inputs seconds = .ok [.setText (versionMark "createdAt") text]) :
      text = (Minute.ofSeconds seconds).text := by
    by_cases hdate : HasDate seconds
    · rw [stampAt_of_hasDate hdate] at h
      simpa [Operation.setText, Operation.set, eq_comm] using h
    · rw [stampAt_of_not_hasDate hdate] at h
      cases h
  have hread (seconds : Int) :
      Minute.ofText? (Minute.ofSeconds seconds).text = some (Minute.ofSeconds seconds) :=
    Minute.ofText?_text (Minute.valid_ofSeconds seconds)
  refine ⟨fun seconds => ⟨fun h hhas => ?_, stampAt_of_not_hasDate⟩, fun seconds hhas => ?_,
    fun seconds other text text' htext htext' => ?_⟩
  · rw [stampAt_of_hasDate hhas] at h
    cases h
  · exact ⟨_, _, stampAt_of_hasDate hhas, hread seconds, numbered_ofSeconds seconds⟩
  · rw [hdate htext, hdate htext']
    constructor
    · intro hsame
      have hminute : Minute.ofSeconds seconds = Minute.ofSeconds other := by
        apply Option.some.inj
        rw [← hread, ← hread, hsame]
      have hnumbered := numbered_ofSeconds other
      rw [← hminute] at hnumbered
      exact (numbered_ofSeconds seconds).number_unique hnumbered
    · intro hsame
      have hnumbered := numbered_ofSeconds other
      rw [← hsame] at hnumbered
      rw [(numbered_ofSeconds seconds).unique hnumbered]

end Bundle

end OperatorBundle
