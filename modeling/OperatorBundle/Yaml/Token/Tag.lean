import OperatorBundle.Text.Digits
import OperatorBundle.Yaml.Charset
import OperatorBundle.Yaml.Fault
import OperatorBundle.Yaml.Token.Basic

/-!
Tokens that start with a mark and a word: anchors, aliases, tags and directives. Each reader returns
the number of characters it takes.
-/

namespace OperatorBundle.Yaml

open OperatorBundle.Text

/-- The name of an anchor or alias, after its mark. A few indicators may follow it directly. -/
def anchorName (cs : List Char) : Except Fault (List Char × Nat) :=
  let name := cs.takeWhile isWord
  let rest := cs.dropWhile isWord
  let ends := atGap rest || startsWithAny ['?', ':', ',', ']', '\x7d', '%', '@', '\x60'] rest
  if name.isEmpty || !ends then .error .anchor else .ok (name, name.length)

/-! ### Tags -/

/-- A character of a tag; `wide` tags may also hold brackets and commas. -/
def isTagChar (wide : Bool) (c : Char) : Bool :=
  isWord c || [';', '/', '?', ':', '@', '&', '=', '+', '$', '.', '%', '!', '~', '*', '\'', '(',
    ')'].contains c || (wide && [',', '[', ']'].contains c)

/-- The number of bytes that follow a first byte of a character's UTF-8 form; `none` for a byte
that starts no character. -/
def followers? (byte : Nat) : Option Nat :=
  if byte < 0x80 then some 0
  else if 0xC0 ≤ byte ∧ byte < 0xE0 then some 1
  else if 0xE0 ≤ byte ∧ byte < 0xF0 then some 2
  else if 0xF0 ≤ byte ∧ byte < 0xF8 then some 3
  else none

/-- The bytes of a tag and the number of characters they take. A percent sign and two hexadecimal
digits write one byte; `pending` bytes of a character that began so must be written so too. -/
def tagBytes (wide : Bool) :
    List Char → Nat → List UInt8 → Nat → Except Fault (List UInt8 × Nat)
  | '%' :: a :: b :: rest, pending, bytes, used =>
    match digitValue? a, digitValue? b with
    | some high, some low =>
      let byte := high * 16 + low
      if pending = 0 then
        match followers? byte with
        | some n => tagBytes wide rest n (byte.toUInt8 :: bytes) (used + 3)
        | none => .error .tag
      else if 0x80 ≤ byte ∧ byte < 0xC0 then
        tagBytes wide rest (pending - 1) (byte.toUInt8 :: bytes) (used + 3)
      else .error .tag
    | _, _ => .error .tag
  | [], pending, bytes, used => if pending = 0 then .ok (bytes.reverse, used) else .error .tag
  | c :: rest, pending, bytes, used =>
    if pending ≠ 0 || c = '%' then .error .tag
    else if isTagChar wide c then
      tagBytes wide rest 0 (c.toNat.toUInt8 :: bytes) (used + 1)
    else .ok (bytes.reverse, used)

/-- The bytes before the first zero byte, which ends a tag. -/
def beforeZero (bytes : List UInt8) : List UInt8 := bytes.takeWhile (· ≠ 0)

/-- ASCII text as bytes. -/
def asciiBytes (cs : List Char) : List UInt8 := cs.map fun c => c.toNat.toUInt8

/-- A tag handle: an exclamation mark, word characters and perhaps another mark. -/
def tagHandle : List Char → List Char
  | '!' :: rest =>
    let word := rest.takeWhile isWord
    match rest.dropWhile isWord with
    | '!' :: _ => '!' :: word ++ ['!']
    | _ => '!' :: word
  | _ => []

/-- The tag at the start of a text, and the number of characters it takes. A tag is written out
between angle brackets, or as a handle with two marks and a suffix, or as one mark and a suffix. A
mark alone has an empty handle. -/
def tagText (cs : List Char) : Except Fault (TagText × Nat) :=
  match cs with
  | '!' :: '<' :: rest => do
    let (bytes, used) ← tagBytes true rest 0 [] 0
    match rest.drop used with
    | '>' :: _ => if used = 0 then .error .tag else .ok (⟨[], beforeZero bytes⟩, used + 3)
    | _ => .error .tag
  | _ => do
    let handle := tagHandle cs
    let (bytes, used) ← tagBytes false (cs.drop handle.length) 0 [] 0
    let total := handle.length + used
    if 1 < handle.length ∧ handle.getLast? = some '!' then
      if used = 0 then .error .tag else .ok (⟨handle, beforeZero bytes⟩, total)
    else
      match beforeZero (asciiBytes (handle.drop 1) ++ bytes) with
      | [] => .ok (⟨[], asciiBytes ['!']⟩, total)
      | suffix => .ok (⟨['!'], suffix⟩, total)

/-- The tag at the start of a text, which a gap must follow, or a comma inside a flow collection. -/
def tagToken (inFlow : Bool) (cs : List Char) : Except Fault (TagText × Nat) := do
  let (tag, used) ← tagText cs
  let rest := cs.drop used
  if atGap rest || (inFlow && startsWithAny [','] rest) then .ok (tag, used) else .error .tag

/-! ### Directives -/

/-- One to nine digits of a version, and the text after them. -/
def versionNumber (cs : List Char) : Except Fault (Nat × List Char) :=
  let digits := cs.takeWhile isDigit
  match nat? 10 digits with
  | some n => if digits.length ≤ 9 then .ok (n, cs.dropWhile isDigit) else .error .directive
  | none => .error .directive

/-- The directive that a line holds after its percent sign, and the text after the directive. -/
def directive (cs : List Char) : Except Fault (Token × List Char) := do
  let name := cs.takeWhile isWord
  let rest := cs.dropWhile isWord
  if !atGap rest then .error .directive
  else
    let body := rest.dropWhile isPad
    if name = ['Y', 'A', 'M', 'L'] then
      match ← versionNumber body with
      | (major, '.' :: minorText) =>
        let (minor, after) ← versionNumber minorText
        .ok (.versionDirective major minor, after)
      | _ => .error .directive
    else if name = ['T', 'A', 'G'] then
      let handle := tagHandle body
      let after := body.drop handle.length
      if handle.isEmpty || (handle ≠ ['!'] && handle.getLast? ≠ some '!') then .error .directive
      else match after with
        | c :: _ =>
          if !isPad c then .error .directive
          else
            let lead := after.dropWhile isPad
            let (bytes, used) ← tagBytes true lead 0 [] 0
            let rest := lead.drop used
            if used = 0 || !atGap rest then .error .directive
            else .ok (.tagDirective handle (beforeZero bytes), rest)
        | [] => .error .directive
    else .error .directive

end OperatorBundle.Yaml
