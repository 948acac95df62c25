/-!
Finding and replacing one text inside another.
-/

namespace OperatorBundle.Text

/-- Whether a text occurs in another; the empty text occurs in every text. -/
def occursIn (needle : List Char) : List Char → Bool
  | [] => needle.isEmpty
  | c :: rest => needle.isPrefixOf (c :: rest) || occursIn needle rest

/-- Replacement of the occurrences of a non-empty text, after `skip` characters that belong to the
occurrence replaced last. -/
def replaceAfter (old new : List Char) : Nat → List Char → List Char
  | _, [] => []
  | skip + 1, _ :: rest => replaceAfter old new skip rest
  | 0, c :: rest =>
    if old.isPrefixOf (c :: rest) then new ++ replaceAfter old new (old.length - 1) rest
    else c :: replaceAfter old new 0 rest

/-- The text with every occurrence of `old` replaced by `new`, leftmost first and without overlaps.
The empty text occurs before each character and at the end. -/
def replaceAll (old new text : List Char) : List Char :=
  if old.isEmpty then new ++ text.flatMap (· :: new) else replaceAfter old new 0 text

/-- The pieces of a text between the occurrences of a character. -/
def pieces (mark : Char) : List Char → List (List Char)
  | [] => [[]]
  | c :: rest =>
    if c = mark then [] :: pieces mark rest
    else match pieces mark rest with
      | [] => [[c]]
      | piece :: more => (c :: piece) :: more

/-- A text that the needle starts is one it occurs in. -/
theorem occursIn_of_isPrefixOf {needle text : List Char} (h : needle.isPrefixOf text) :
    occursIn needle text := by
  cases text with
  | nil => cases needle <;> simp_all [occursIn]
  | cons c rest => simp [occursIn, h]

/-- What does not occur is not replaced. -/
theorem replaceAfter_zero_of_not_occursIn {old : List Char} (new : List Char) {text : List Char}
    (h : occursIn old text = false) : replaceAfter old new 0 text = text := by
  induction text with
  | nil => rfl
  | cons c rest ih =>
    simp only [occursIn, Bool.or_eq_false_iff] at h
    simp [replaceAfter, h.1, ih h.2]

end OperatorBundle.Text
