import Mathlib.Data.List.Basic
import Mathlib.Data.Set.Function
import OperatorBundle.Locator.Basic
import OperatorBundle.Proofs.Text.Quoted

/-!
Written locators. What is written for a segment tells which segment it is and where it ends,
whatever segments follow: a plain key ends where no plain character goes on, and all else is in
brackets, with quotes around every text that might hold one. So no two locators are written alike,
as long as the fields in their conditions are plain keys; and a locator of plain keys is read back
from its dots.

* `Segment.read?_text`: a segment is read from the text that it starts.
* `Locator.text_identifies`: the two results on locators.
-/

namespace OperatorBundle

open OperatorBundle.Text

/-! ### Plain keys -/

/-- Whether a character may be part of a plain key. -/
def isPlainChar (c : Char) : Bool := c.isAlphanum || c = '_' || c = '-'

theorem isPlainKey_iff {name : String} :
    isPlainKey name ↔ name.toList ≠ [] ∧ ∀ c ∈ name.toList, isPlainChar c := by
  rw [isPlainKey, Bool.and_eq_true, Bool.not_eq_true', List.all_eq_true, ← Bool.not_eq_true,
    String.isEmpty_iff, ← String.toList_eq_nil_iff]
  rfl

/-- Whether a plain key ends before a text. -/
def EndsKey (rest : List Char) : Prop := ∀ c ∈ rest.head?, isPlainChar c = false

theorem endsKey_cons {c : Char} (h : isPlainChar c = false) (rest : List Char) :
    EndsKey (c :: rest) := by
  simpa [EndsKey] using h

section Keys

variable {key rest : List Char}

theorem takeWhile_isPlainChar (h : ∀ c ∈ key, isPlainChar c) (hrest : EndsKey rest) :
    (key ++ rest).takeWhile isPlainChar = key := by
  rw [List.takeWhile_append_of_pos h]
  cases rest with
  | nil => simp
  | cons c more => simp [show isPlainChar c = false from hrest c rfl]

theorem dropWhile_isPlainChar (h : ∀ c ∈ key, isPlainChar c) (hrest : EndsKey rest) :
    (key ++ rest).dropWhile isPlainChar = rest := by
  rw [List.dropWhile_append_of_pos h]
  cases rest with
  | nil => simp
  | cons c more => simp [show isPlainChar c = false from hrest c rfl]

end Keys

theorem isPlainChar_of_mem_decimal {n : Nat} {c : Char} (h : c ∈ decimal n) : isPlainChar c := by
  have hdigit := Nat.isDigit_of_mem_toDigits (by decide) (by decide) h
  simp [isPlainChar, Char.isAlphanum, hdigit]

/-! ### Segments -/

namespace Segment

/-- Whether the field of a condition is a plain key. -/
def HasPlainField : Segment → Prop
  | .find selector => isPlainKey selector.field
  | _ => True

/-- A text up to its closing quote and the bracket after it, and what follows them. -/
def readOperand? (text : List Char) : Option (String × List Char) :=
  match unquoted? text with
  | some (operand, ']' :: rest) => some (String.ofList operand, rest)
  | _ => none

/-- The segment in brackets that start with a word, from what follows the word. -/
def readAfterWord? (word : List Char) : List Char → Option (Segment × List Char)
  | ']' :: rest => (nat? 10 word).map fun position => (.index position, rest)
  | '~' :: '=' :: '"' :: rest => (readOperand? rest).map fun (needle, after) =>
      (.find ⟨String.ofList word, .contains needle⟩, after)
  | '=' :: '=' :: '"' :: rest => (readOperand? rest).map fun (value, after) =>
      (.find ⟨String.ofList word, .equals value⟩, after)
  | _ => none

/-- The first segment of a written locator, and what is written after it. -/
def read? : List Char → Option (Segment × List Char)
  | '.' :: rest =>
    some (.key (String.ofList (rest.takeWhile isPlainChar)), rest.dropWhile isPlainChar)
  | '[' :: '"' :: rest => (readOperand? rest).map fun (name, after) => (.key name, after)
  | '[' :: rest => readAfterWord? (rest.takeWhile isPlainChar) (rest.dropWhile isPlainChar)
  | _ => none

theorem readOperand?_quoted (operand : String) (rest : List Char) :
    readOperand? (operand.toList.flatMap quotedChar ++ '"' :: ']' :: rest) =
      some (operand, rest) := by
  rw [readOperand?, unquoted?_quoted]
  simp

/-- A word in brackets is no quoted text. -/
theorem read?_word {word rest : List Char} (hsome : word ≠ []) (h : ∀ c ∈ word, isPlainChar c)
    (hrest : EndsKey rest) : read? ('[' :: (word ++ rest)) = readAfterWord? word rest := by
  have hquote : ∀ more, word ++ rest ≠ '"' :: more := by
    rintro more hmore
    obtain ⟨c, others, rfl⟩ := List.exists_cons_of_ne_nil hsome
    have hc := h c List.mem_cons_self
    rw [(List.cons.inj hmore).1] at hc
    cases hc
  rw [read?, takeWhile_isPlainChar h hrest, dropWhile_isPlainChar h hrest]
  exact hquote

/-- A condition is read from its field, its sign and its operand. -/
theorem readAfterWord?_sign (field : String) (matcher : Matcher) (rest : List Char) :
    readAfterWord? field.toList (matcher.sign ++ '"' ::
      (matcher.operand.toList.flatMap quotedChar ++ '"' :: ']' :: rest)) =
      some (.find ⟨field, matcher⟩, rest) := by
  have hoperand := readOperand?_quoted matcher.operand rest
  cases matcher with
  | contains needle =>
    show (readOperand? _).map _ = _
    rw [hoperand, String.ofList_toList]
    rfl
  | equals value =>
    show (readOperand? _).map _ = _
    rw [hoperand, String.ofList_toList]
    rfl

theorem endsKey_sign (matcher : Matcher) (rest : List Char) : EndsKey (matcher.sign ++ rest) := by
  cases matcher <;> (intro c hc; obtain rfl := Option.some.inj hc; rfl)

/-- **A segment is read from the text that it starts.** -/
theorem read?_text {segment : Segment} (h : segment.HasPlainField) {rest : List Char}
    (hrest : EndsKey rest) : read? (segment.text ++ rest) = some (segment, rest) := by
  cases segment with
  | key name =>
    rw [text]
    split_ifs with hplain
    · obtain ⟨-, hchars⟩ := isPlainKey_iff.1 hplain
      rw [List.cons_append, read?, takeWhile_isPlainChar hchars hrest,
        dropWhile_isPlainChar hchars hrest, String.ofList_toList]
    · have hname := readOperand?_quoted name rest
      simp only [quoted, List.cons_append, List.append_assoc, List.nil_append]
      rw [read?, hname, Option.map_some]
  | index position =>
    have hends : EndsKey (']' :: rest) := endsKey_cons rfl rest
    have hword := read?_word (Nat.toDigits_ne_nil (n := position) (b := 10))
      (fun c => isPlainChar_of_mem_decimal) hends
    simp only [text, List.cons_append, List.append_assoc, List.nil_append]
    rw [decimal, hword, readAfterWord?, nat?_toDigits (by decide) (by decide), Option.map_some]
  | find selector =>
    obtain ⟨hsome, hchars⟩ := isPlainKey_iff.1 h
    simp only [text, quoted, List.cons_append, List.append_assoc, List.nil_append]
    rw [read?_word hsome hchars (endsKey_sign _ _), readAfterWord?_sign]

/-- Every segment starts with a mark that no plain key holds. -/
theorem exists_text_eq_cons (segment : Segment) :
    ∃ mark rest, segment.text = mark :: rest ∧ isPlainChar mark = false := by
  cases segment with
  | key name =>
    rw [text]
    split
    · exact ⟨'.', _, rfl, rfl⟩
    · exact ⟨'[', _, rfl, rfl⟩
  | index position => exact ⟨'[', _, rfl, rfl⟩
  | find selector => exact ⟨'[', _, rfl, rfl⟩

theorem endsKey_flatMap_text (segments : List Segment) : EndsKey (segments.flatMap text) := by
  cases segments with
  | nil => simp [EndsKey]
  | cons segment more =>
    obtain ⟨mark, rest, htext, hmark⟩ := segment.exists_text_eq_cons
    rw [List.flatMap_cons, htext]
    exact endsKey_cons hmark _

/-- **Segments are told from the text of all of them.** -/
theorem flatMap_text_inj {segments others : List Segment}
    (h : ∀ segment ∈ segments, segment.HasPlainField)
    (hothers : ∀ segment ∈ others, segment.HasPlainField)
    (htext : segments.flatMap text = others.flatMap text) : segments = others := by
  have hsome (segment : Segment) (more : List Segment) : (segment :: more).flatMap text ≠ [] := by
    obtain ⟨mark, rest, hcons, -⟩ := segment.exists_text_eq_cons
    simp [hcons]
  induction segments generalizing others with
  | nil =>
    cases others with
    | nil => rfl
    | cons other more => exact absurd htext.symm (hsome other more)
  | cons segment more ih =>
    cases others with
    | nil => exact absurd htext (hsome segment more)
    | cons other rest =>
      obtain ⟨hfirst, hmore⟩ := List.forall_mem_cons.1 h
      obtain ⟨hother, hrest⟩ := List.forall_mem_cons.1 hothers
      -- one reading of the text finds both first segments
      have hread := read?_text hfirst (endsKey_flatMap_text more)
      rw [List.flatMap_cons, List.flatMap_cons] at htext
      rw [htext, read?_text hother (endsKey_flatMap_text rest)] at hread
      obtain ⟨rfl, hafter⟩ := Prod.mk.inj (Option.some.inj hread)
      rw [ih hmore hrest hafter.symm]

end Segment

/-! ### Locators -/

namespace Locator

/-- Whether the fields of all conditions are plain keys. -/
def HasPlainFields (locator : Locator) : Prop :=
  ∀ segment ∈ locator.segments, segment.HasPlainField

/-- The text of the segments of a locator, with the dot before a first plain key put back. -/
def withDot : List Char → List Char
  | ['.'] => []
  | '[' :: rest => '[' :: rest
  | cs => '.' :: cs

theorem toList_text_of_dot {locator : Locator} {rest : List Char}
    (h : locator.segments.flatMap Segment.text = '.' :: rest) : locator.text.toList = rest := by
  rw [text, h]
  exact String.toList_ofList

theorem toList_text_of_bracket {locator : Locator} {rest : List Char}
    (h : locator.segments.flatMap Segment.text = '[' :: rest) :
    locator.text.toList = '[' :: rest := by
  rw [text, h]
  exact String.toList_ofList

theorem withDot_text (locator : Locator) :
    withDot locator.text.toList = locator.segments.flatMap Segment.text := by
  have hbracket (rest : List Char) (h : locator.segments.flatMap Segment.text = '[' :: rest) :
      withDot locator.text.toList = locator.segments.flatMap Segment.text := by
    rw [toList_text_of_bracket h, h]
    rfl
  obtain ⟨segments⟩ := locator
  cases segments with
  | nil => rfl
  | cons segment more =>
    cases segment with
    | key name =>
      by_cases hplain : isPlainKey name
      · obtain ⟨hsome, hchars⟩ := isPlainKey_iff.1 hplain
        obtain ⟨c, rest, hcons⟩ := List.exists_cons_of_ne_nil hsome
        have hc : isPlainChar c := hchars c (by simp [hcons])
        have hflat : (Segment.key name :: more).flatMap Segment.text =
            '.' :: c :: (rest ++ more.flatMap Segment.text) := by
          simp [Segment.text, hplain, hcons]
        have hdot : c ≠ '.' := by
          rintro rfl
          cases hc
        have hopen : c ≠ '[' := by
          rintro rfl
          cases hc
        rw [toList_text_of_dot hflat, hflat, withDot]
        · exact fun h => absurd (List.cons.inj h).1 hdot
        · exact fun _ h => absurd (List.cons.inj h).1 hopen
      · refine hbracket (quoted name.toList ++ ']' :: more.flatMap Segment.text) ?_
        simp [Segment.text, hplain]
    | index position => exact hbracket _ rfl
    | find selector => exact hbracket _ rfl

theorem text_injOn : Set.InjOn text {locator | locator.HasPlainFields} := by
  intro locator h other hother htext
  have hflat := locator.withDot_text
  rw [htext, other.withDot_text] at hflat
  have hsegments := Segment.flatMap_text_inj h hother hflat.symm
  obtain ⟨segments⟩ := locator
  obtain ⟨others⟩ := other
  exact congrArg Locator.mk hsegments

/-! ### Paths -/

theorem pieces_of_notMem {mark : Char} {piece : List Char} (h : mark ∉ piece) :
    pieces mark piece = [piece] := by
  induction piece with
  | nil => rfl
  | cons c rest ih =>
    obtain ⟨hc, hrest⟩ := not_or.1 (mt List.mem_cons.2 h)
    rw [pieces, if_neg (Ne.symm hc), ih hrest]

theorem pieces_append {mark : Char} {piece : List Char} (h : mark ∉ piece) (rest : List Char) :
    pieces mark (piece ++ mark :: rest) = piece :: pieces mark rest := by
  induction piece with
  | nil => rw [List.nil_append, pieces, if_pos rfl]
  | cons c more ih =>
    obtain ⟨hc, hmore⟩ := not_or.1 (mt List.mem_cons.2 h)
    rw [List.cons_append, pieces, if_neg (Ne.symm hc), ih hmore]

theorem pieces_dotted {key : List Char} {keys : List (List Char)}
    (h : ∀ k ∈ key :: keys, '.' ∉ k) :
    pieces '.' (key ++ keys.flatMap ('.' :: ·)) = key :: keys := by
  induction keys generalizing key with
  | nil =>
    rw [List.flatMap_nil, List.append_nil]
    exact pieces_of_notMem (h key List.mem_cons_self)
  | cons next keys ih =>
    obtain ⟨hkey, hkeys⟩ := List.forall_mem_cons.1 h
    rw [List.flatMap_cons, List.cons_append, pieces_append hkey, ih hkeys]

/-- **A locator of plain keys is read back from its dots.** -/
theorem path_text_keys {keys : List String} (h : ∀ name ∈ keys, isPlainKey name) :
    path (Locator.mk (keys.map .key)).text = ⟨keys.map .key⟩ := by
  have hflat : (keys.map Segment.key).flatMap Segment.text =
      (keys.map String.toList).flatMap ('.' :: ·) := by
    rw [List.flatMap_map, List.flatMap_map]
    refine List.flatMap_congr fun name hname => ?_
    rw [Segment.text, if_pos (h name hname)]
  have hplain : ∀ k ∈ keys.map String.toList, k ≠ [] ∧ '.' ∉ k := by
    intro k hk
    obtain ⟨name, hname, rfl⟩ := List.mem_map.1 hk
    obtain ⟨hsome, hchars⟩ := isPlainKey_iff.1 (h name hname)
    exact ⟨hsome, fun hdot => by cases hchars '.' hdot⟩
  cases keys with
  | nil => rfl
  | cons name more =>
    have htext : (Locator.mk ((name :: more).map .key)).text.toList =
        name.toList ++ (more.map String.toList).flatMap ('.' :: ·) := toList_text_of_dot hflat
    rw [path, htext, pieces_dotted fun k hk => (hplain k hk).2]
    -- no key is empty, so none is left out
    have hfilter : (name.toList :: more.map String.toList).filter (fun k => !k.isEmpty) =
        name.toList :: more.map String.toList := by
      refine List.filter_eq_self.2 fun k hk => ?_
      simpa using (hplain k hk).1
    rw [hfilter]
    simp [Function.comp_def]

/-- **A written locator tells which locator it is.** Locators whose conditions are on fields that
are plain keys are written alike only if they are the same, whatever their keys, positions and
operands are. A locator of plain keys only, also one of none, is read back from its text. -/
theorem text_identifies :
    (∀ locator other : Locator, locator.HasPlainFields → other.HasPlainFields →
      locator.text = other.text → locator = other) ∧
    ∀ keys : List String, (∀ name ∈ keys, isPlainKey name) →
      path (Locator.mk (keys.map .key)).text = ⟨keys.map .key⟩ :=
  ⟨fun _ _ h hother htext => text_injOn h hother htext, fun _ h => path_text_keys h⟩

/-- A condition whose operand holds the text of another, and the two in a row; and paths of keys. -/
theorem text_identifies_nested :
    ((Locator.root.findContaining "a" "b\"][c==\"d").text ≠
      (((Locator.root.findContaining "a" "b").below (.find ⟨"c", .equals "d"⟩)).text)) ∧
    path (Locator.mk ([].map .key)).text = root ∧
    path (Locator.mk (["metadata", "quay-version"].map .key)).text =
      (root.key "metadata").key "quay-version" := by
  have hfields (field : String) (matcher : Matcher) (h : isPlainKey field) :
      (Segment.find ⟨field, matcher⟩).HasPlainField := h
  refine ⟨mt (text_identifies.1 _ _ ?_ ?_) (by decide), text_identifies.2 [] (by simp),
    text_identifies.2 ["metadata", "quay-version"] ?_⟩
  · exact List.forall_mem_singleton.2 (hfields "a" _ (by decide))
  · exact List.forall_mem_cons.2
      ⟨hfields "a" _ (by decide), List.forall_mem_singleton.2 (hfields "c" _ (by decide))⟩
  · exact List.forall_mem_cons.2 ⟨by decide, List.forall_mem_singleton.2 (by decide)⟩

end Locator

end OperatorBundle
