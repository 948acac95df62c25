import Mathlib.Data.List.Forall2
import OperatorBundle.Proofs.Json.Reader

/-!
Tokens of documents. Both written forms of a document have the same tokens, which do not depend on
the blanks between them nor on what follows. A document may hold any text; its numerals have to be
numerals.
-/

namespace OperatorBundle.Json

open OperatorBundle.Text

/-! ### Strings that are written -/

/-- The four digits of a control character. -/
theorem exists_hexPadded {n : Nat} (h : n < 32) :
    ∃ x y z w, hexPadded 4 n = [x, y, z, w] ∧ coded? [x, y, z, w] = some (Char.ofNat n) := by
  have hall : ∀ n < 32, (hexPadded 4 n).length = 4 ∧
      coded? (hexPadded 4 n) = some (Char.ofNat n) := by decide +kernel
  obtain ⟨hlength, hcoded⟩ := hall n h
  match hdigits : hexPadded 4 n, hlength with
  | [x, y, z, w], _ => exact ⟨x, y, z, w, rfl, hdigits ▸ hcoded⟩

/-- A written character is read. -/
theorem readString_stringChar (c : Char) (rest : List Char) :
    readString (stringChar c ++ rest) = (readString rest).map (before c) := by
  unfold stringChar
  split_ifs with hmark hback hfeed hline hreturn htab hcontrol
  · rw [Bool.or_eq_true, decide_eq_true_eq, decide_eq_true_eq] at hmark
    rcases hmark with rfl | rfl <;> rfl
  · subst hback; rfl
  · subst hfeed; rfl
  · subst hline; rfl
  · subst hreturn; rfl
  · subst htab; rfl
  · have hcode : c.toNat < 32 := Char.lt_def.1 hcontrol
    obtain ⟨x, y, z, w, hdigits, hcoded⟩ := exists_hexPadded hcode
    rw [hdigits]
    rw [Char.ofNat_toNat] at hcoded
    simp only [List.cons_append, List.nil_append]
    exact readString.eq_3 _ _ _ _ _ _ hcoded
  · rw [Bool.or_eq_true, decide_eq_true_eq, decide_eq_true_eq, not_or] at hmark
    rw [List.singleton_append, readString, if_neg hcontrol]
    · exact hmark.1
    · exact fun _ _ _ _ _ h => absurd h hmark.2
    · exact fun _ _ h => absurd h hmark.2

/-- **A written string is read.** -/
theorem readString_stringText (text rest : List Char) :
    readString (text.flatMap stringChar ++ '"' :: rest) = some (text, rest) := by
  induction text with
  | nil => rfl
  | cons c more ih =>
    rw [List.flatMap_cons, List.append_assoc, readString_stringChar, ih]
    rfl

/-! ### Tokens of texts -/

/-- Whether a text has the given tokens, whatever follows it. -/
def SplitsOff (text : List Char) (tokens : List Token) : Prop :=
  ∀ rest, tokens? (text ++ rest) = (tokens? rest).map (tokens ++ ·)

/-- Whether a word ends before a text. -/
def EndsWord (rest : List Char) : Prop := ∀ c ∈ rest.head?, isLetter c = false

/-- Whether a text has the given tokens, where a word that it ends with goes on no further. -/
def HasTokens (text : List Char) (tokens : List Token) : Prop :=
  ∀ rest, EndsWord rest → tokens? (text ++ rest) = (tokens? rest).map (tokens ++ ·)

section Append

variable {text more : List Char} {tokens others : List Token}

theorem endsWord_cons {c : Char} (h : isLetter c = false) (rest : List Char) :
    EndsWord (c :: rest) := by
  simpa [EndsWord] using h

theorem EndsWord.append (htext : EndsWord text) (hmore : EndsWord more) :
    EndsWord (text ++ more) := by
  cases text with
  | nil => exact hmore
  | cons c rest => exact htext

theorem SplitsOff.hasTokens (h : SplitsOff text tokens) : HasTokens text tokens :=
  fun rest _ => h rest

theorem SplitsOff.append (h : SplitsOff text tokens) (hmore : HasTokens more others) :
    HasTokens (text ++ more) (tokens ++ others) := by
  intro rest hrest
  rw [List.append_assoc, h, hmore rest hrest, Option.map_map]
  simp [Function.comp_def]

theorem HasTokens.append (h : HasTokens text tokens) (hmore : HasTokens more others)
    (hends : EndsWord more) : HasTokens (text ++ more) (tokens ++ others) := by
  intro rest hrest
  rw [List.append_assoc, h _ (hends.append hrest), hmore rest hrest, Option.map_map]
  simp [Function.comp_def]

theorem SplitsOff.cons {c : Char} (h : isMark c) (htext : SplitsOff text []) :
    SplitsOff (c :: text) [.mark c] := by
  have hspace : isSpace c = false := by
    simp only [isMark, Bool.or_eq_true, decide_eq_true_eq] at h
    rcases h with ((((rfl | rfl) | rfl) | rfl) | rfl) | rfl <;> rfl
  intro rest
  rw [List.cons_append, tokens?, if_neg (by simp [hspace]), if_pos h, htext, Option.map_map]
  rfl

end Append

theorem splitsOff_nil : SplitsOff [] [] := by
  intro rest
  simp

theorem splitsOff_spaces {spaces : List Char} (h : ∀ c ∈ spaces, isSpace c) :
    SplitsOff spaces [] := by
  intro rest
  induction spaces with
  | nil => exact splitsOff_nil rest
  | cons c more ih =>
    obtain ⟨hc, hmore⟩ := List.forall_mem_cons.1 h
    rw [List.cons_append, tokens?, if_pos hc, ih hmore]

theorem tokens?_string {text value more : List Char} (h : readString text = some (value, more)) :
    tokens? ('"' :: text) = (tokens? more).map (.string (String.ofList value) :: ·) := by
  rw [tokens?, if_neg (by decide), if_neg (by decide), if_pos rfl]
  split
  · next found other hfound =>
    obtain ⟨rfl, rfl⟩ := Prod.mk.inj (Option.some.inj (hfound.symm.trans h))
    rfl
  · next hnone => exact absurd (hnone.symm.trans h) (by simp)

theorem splitsOff_stringText (s : String) : SplitsOff (stringText s) [.string s] := by
  intro rest
  rw [stringText, List.cons_append, List.append_assoc, List.singleton_append,
    tokens?_string (readString_stringText s.toList rest), String.ofList_toList]
  rfl

/-- A letter is of no other kind. -/
theorem not_isSpace_not_isMark_of_isLetter {c : Char} (h : isLetter c) :
    isSpace c = false ∧ isMark c = false ∧ c ≠ '"' := by
  have hne : ∀ other : Char, isLetter other = false → c ≠ other := by
    rintro other hother rfl
    rw [h] at hother
    cases hother
  refine ⟨?_, ?_, hne _ rfl⟩
  · simp [isSpace, hne ' ' rfl, hne '\t' rfl, hne '\n' rfl, hne '\r' rfl]
  · simp [isMark, hne '[' rfl, hne ']' rfl, hne '\x7b' rfl, hne '\x7d' rfl, hne ',' rfl,
      hne ':' rfl]

/-- A word is read up to its end. -/
theorem hasTokens_word {letters : List Char} (hsome : letters ≠ [])
    (h : ∀ c ∈ letters, isLetter c) : HasTokens letters [.word letters] := by
  intro rest hrest
  obtain ⟨c, more, rfl⟩ := List.exists_cons_of_ne_nil hsome
  obtain ⟨hc, hmore⟩ := List.forall_mem_cons.1 h
  obtain ⟨hspace, hmark, hquote⟩ := not_isSpace_not_isMark_of_isLetter hc
  have htake : rest.takeWhile isLetter = [] ∧ rest.dropWhile isLetter = rest := by
    cases rest with
    | nil => exact ⟨rfl, rfl⟩
    | cons d others =>
      have hd : isLetter d = false := hrest d rfl
      simp [hd]
  rw [List.cons_append, tokens?, if_neg (by simp [hspace]), if_neg (by simp [hmark]),
    if_neg hquote, if_pos hc, List.takeWhile_append_of_pos hmore,
    List.dropWhile_append_of_pos hmore, htake.1, htake.2, List.append_nil]
  rfl

/-! ### Numerals -/

theorem isLetter_of_isDigit {c : Char} (h : isDigit c) : isLetter c := by
  have hdigit : c.isDigit = true := by
    simpa [isDigit, Char.isDigit, Char.le_def, UInt32.le_iff_toNat_le] using h
  simp [isLetter, Char.isAlphanum, hdigit]

namespace Numeral

variable {read after : Numeral} {c : Char}

theorem isLetter_of_first (h : first c = some after) : isLetter c := by
  unfold first at h
  split_ifs at h with hzero hdigit
  · exact hzero ▸ rfl
  · exact isLetter_of_isDigit hdigit

theorem isLetter_of_exponentAt (h : exponentAt c = some after) : isLetter c := by
  unfold exponentAt at h
  split_ifs at h with hmark
  rw [Bool.or_eq_true, decide_eq_true_eq, decide_eq_true_eq] at hmark
  rcases hmark with rfl | rfl <;> rfl

theorem isLetter_of_afterWhole (h : afterWhole c = some after) : isLetter c := by
  unfold afterWhole at h
  split_ifs at h with hpoint
  · exact hpoint ▸ rfl
  · exact isLetter_of_exponentAt h

/-- A numeral goes on with letters only. -/
theorem isLetter_of_step (h : read.step c = some after) : isLetter c := by
  cases read with
  | start =>
    simp only [step] at h
    split_ifs at h with hsign
    · exact hsign ▸ rfl
    · exact isLetter_of_first h
  | sign => exact isLetter_of_first h
  | zero => exact isLetter_of_afterWhole h
  | whole =>
    simp only [step] at h
    split_ifs at h with hdigit
    · exact isLetter_of_isDigit hdigit
    · exact isLetter_of_afterWhole h
  | fraction =>
    simp only [step] at h
    split_ifs at h with hdigit
    · exact isLetter_of_isDigit hdigit
    · exact isLetter_of_exponentAt h
  | exponentMark =>
    simp only [step] at h
    split_ifs at h with hsign hdigit
    · rw [Bool.or_eq_true, decide_eq_true_eq, decide_eq_true_eq] at hsign
      rcases hsign with rfl | rfl <;> rfl
    · exact isLetter_of_isDigit hdigit
  | point | exponentSign | exponent =>
    simp only [step] at h
    split_ifs at h with hdigit
    exact isLetter_of_isDigit hdigit

theorem isLetter_of_foldlM {letters : List Char} (h : letters.foldlM step read = some after) :
    ∀ c ∈ letters, isLetter c := by
  induction letters generalizing read with
  | nil => simp
  | cons c more ih =>
    rw [List.foldlM_cons] at h
    obtain ⟨next, hnext, hmore⟩ := Option.bind_eq_some_iff.1 h
    exact List.forall_mem_cons.2 ⟨isLetter_of_step hnext, ih hmore⟩

end Numeral

theorem hasTokens_numeral {letters : List Char} (h : isNumeral letters) :
    HasTokens letters [.word letters] := by
  obtain ⟨after, hafter, -⟩ := (Option.any_eq_true ..).1 h
  refine hasTokens_word ?_ (Numeral.isLetter_of_foldlM hafter)
  rintro rfl
  cases h

/-- A numeral is none of the literals. -/
theorem scalar?_numeral {letters : List Char} (h : isNumeral letters) :
    scalar? letters = some (.number (String.ofList letters)) := by
  have hne : ∀ literal, isNumeral literal = false → letters ≠ literal := by
    rintro literal hliteral rfl
    rw [h] at hliteral
    cases hliteral
  rw [scalar?, if_neg (hne _ rfl), if_neg (hne _ rfl), if_neg (hne _ rfl), if_pos h]

/-! ### Tokens of documents -/

/-- Tokens of texts with commas between them. -/
def listed : List (List Token) → List Token
  | [] => []
  | [tokens] => tokens
  | tokens :: more => tokens ++ .mark ',' :: listed more

mutual
/-- The tokens of a document. -/
def tokens : Json → List Token
  | .null => [.word ['n', 'u', 'l', 'l']]
  | .bool true => [.word ['t', 'r', 'u', 'e']]
  | .bool false => [.word ['f', 'a', 'l', 's', 'e']]
  | .number numeral => [.word numeral.toList]
  | .string text => [.string text]
  | .array items => .mark '[' :: (listed (itemTokens items) ++ [.mark ']'])
  | .object members => .mark '\x7b' :: (listed (memberTokens members) ++ [.mark '\x7d'])

/-- The tokens of each item of an array. -/
def itemTokens : List Json → List (List Token)
  | [] => []
  | item :: more => item.tokens :: itemTokens more

/-- The tokens of each member of an object. -/
def memberTokens : List (String × Json) → List (List Token)
  | [] => []
  | (name, value) :: more => (.string name :: .mark ':' :: value.tokens) :: memberTokens more
end

/-- A document whose numerals are numerals. -/
inductive Proper : Json → Prop
  | null : Proper .null
  | bool (value : Bool) : Proper (.bool value)
  | number {numeral : String} (h : isNumeral numeral.toList) : Proper (.number numeral)
  | string (text : String) : Proper (.string text)
  | array {items : List Json} (h : ∀ item ∈ items, Proper item) : Proper (.array items)
  | object {members : List (String × Json)} (h : ∀ m ∈ members, Proper m.2) :
      Proper (.object members)

/-! ### Tokens of the written forms -/

/-- Texts with a separator between them that has a comma for its token. -/
theorem hasTokens_separated {blanks : List Char} {texts : List (List Char)}
    {parts : List (List Token)} (hblanks : SplitsOff blanks [])
    (h : List.Forall₂ HasTokens texts parts) :
    HasTokens (separated (',' :: blanks) texts) (listed parts) := by
  induction h with
  | nil => exact splitsOff_nil.hasTokens
  | @cons text part texts parts htext hmore ih =>
    cases hmore with
    | nil => exact htext
    | cons hsecond hothers =>
      have htail := (hblanks.cons (c := ',') rfl).append ih
      rw [separated, listed, List.append_assoc]
      · exact htext.append htail (endsWord_cons rfl _)
      · simp
      · simp

/-- Texts between brackets, with blanks anywhere around them. -/
theorem hasTokens_enclosed {opening closing : Char} {first last blanks : List Char}
    {texts : List (List Char)} {parts : List (List Token)} (hopening : isMark opening)
    (hclosing : isMark closing) (hfirst : SplitsOff first []) (hlast : SplitsOff last [])
    (hends : EndsWord (last ++ [closing])) (hblanks : SplitsOff blanks [])
    (h : List.Forall₂ HasTokens texts parts) :
    HasTokens (opening :: first ++ (separated (',' :: blanks) texts ++ (last ++ [closing])))
      (.mark opening :: (listed parts ++ [.mark closing])) := by
  have hend := hlast.append (splitsOff_nil.cons hclosing).hasTokens
  exact (hfirst.cons hopening).append ((hasTokens_separated hblanks h).append hend hends)

theorem hasTokens_member {blanks text : List Char} {tokens : List Token} (name : String)
    (hblanks : SplitsOff blanks []) (h : HasTokens text tokens) :
    HasTokens (stringText name ++ ':' :: (blanks ++ text))
      (.string name :: .mark ':' :: tokens) :=
  (splitsOff_stringText name).append ((hblanks.cons rfl).append h)

theorem itemTokens_eq (items : List Json) : itemTokens items = items.map tokens := by
  induction items with
  | nil => rfl
  | cons item more ih => rw [itemTokens, ih, List.map_cons]

/-- The tokens of a member. -/
def tokensOfMember (m : String × Json) : List Token := .string m.1 :: .mark ':' :: m.2.tokens

theorem memberTokens_eq (members : List (String × Json)) :
    memberTokens members = members.map tokensOfMember := by
  induction members with
  | nil => rfl
  | cons m more ih => rw [memberTokens, ih, List.map_cons, tokensOfMember]

theorem compactItems_eq (items : List Json) : compactItems items = items.map compact := by
  induction items with
  | nil => rfl
  | cons item more ih => rw [compactItems, ih, List.map_cons]

theorem compactMembers_eq (members : List (String × Json)) :
    compactMembers members = members.map fun m => stringText m.1 ++ ':' :: m.2.compact := by
  induction members with
  | nil => rfl
  | cons m more ih => rw [compactMembers, ih, List.map_cons]

theorem prettyItems_eq (level : Nat) (items : List Json) :
    prettyItems level items = items.map (prettyAt (level + 1)) := by
  induction items with
  | nil => rfl
  | cons item more ih => rw [prettyItems, ih, List.map_cons]

theorem prettyMembers_eq (level : Nat) (members : List (String × Json)) :
    prettyMembers level members =
      members.map fun m => stringText m.1 ++ ':' :: ' ' :: m.2.prettyAt (level + 1) := by
  induction members with
  | nil => rfl
  | cons m more ih => rw [prettyMembers, ih, List.map_cons]

/-- The written form without blanks has the tokens of the document. -/
theorem hasTokens_compact {json : Json} (h : json.Proper) : HasTokens json.compact json.tokens := by
  induction h with
  | null => exact hasTokens_word (List.cons_ne_nil _ _) (List.all_eq_true.1 rfl)
  | bool value =>
    cases value <;> exact hasTokens_word (List.cons_ne_nil _ _) (List.all_eq_true.1 rfl)
  | number h => exact hasTokens_numeral h
  | string text => exact (splitsOff_stringText text).hasTokens
  | @array items h ih =>
    rw [compact, tokens, compactItems_eq, itemTokens_eq]
    refine hasTokens_enclosed rfl rfl splitsOff_nil splitsOff_nil (endsWord_cons rfl _)
      splitsOff_nil ?_
    rw [List.forall₂_map_left_iff, List.forall₂_map_right_iff, List.forall₂_same]
    exact ih
  | @object members h ih =>
    rw [compact, tokens, compactMembers_eq, memberTokens_eq]
    refine hasTokens_enclosed rfl rfl splitsOff_nil splitsOff_nil (endsWord_cons rfl _)
      splitsOff_nil ?_
    rw [List.forall₂_map_left_iff, List.forall₂_map_right_iff, List.forall₂_same]
    exact fun m hm => hasTokens_member m.1 splitsOff_nil (ih m hm)

theorem splitsOff_newLine (level : Nat) : SplitsOff (newLine level) [] := by
  refine splitsOff_spaces (List.forall_mem_cons.2 ⟨rfl, fun c hc => ?_⟩)
  rw [List.eq_of_mem_replicate hc]
  rfl

/-- Brackets around parts on lines of their own. -/
theorem hasTokens_spread {opening closing : Char} {texts : List (List Char)}
    {parts : List (List Token)} (hopening : isMark opening) (hclosing : isMark closing)
    (hends : isLetter closing = false) (level : Nat) (h : List.Forall₂ HasTokens texts parts) :
    HasTokens (spread opening closing level texts)
      (.mark opening :: (listed parts ++ [.mark closing])) := by
  unfold spread
  split_ifs with hempty
  · rw [List.isEmpty_iff] at hempty
    subst hempty
    cases h
    exact hasTokens_enclosed hopening hclosing splitsOff_nil splitsOff_nil
      (endsWord_cons hends _) splitsOff_nil .nil
  · rw [List.append_assoc, List.append_assoc]
    exact hasTokens_enclosed hopening hclosing (splitsOff_newLine _) (splitsOff_newLine _)
      (endsWord_cons rfl _) (splitsOff_newLine _) h

/-- The written form on lines has the tokens of the document, at every level. -/
theorem hasTokens_prettyAt {json : Json} (h : json.Proper) (level : Nat) :
    HasTokens (json.prettyAt level) json.tokens := by
  induction h generalizing level with
  | null => exact hasTokens_compact .null
  | bool value => exact hasTokens_compact (.bool value)
  | number h => exact hasTokens_compact (.number h)
  | string text => exact hasTokens_compact (.string text)
  | @array items h ih =>
    rw [prettyAt, tokens, prettyItems_eq, itemTokens_eq]
    refine hasTokens_spread rfl rfl rfl level ?_
    rw [List.forall₂_map_left_iff, List.forall₂_map_right_iff, List.forall₂_same]
    exact fun item hitem => ih item hitem _
  | @object members h ih =>
    rw [prettyAt, tokens, prettyMembers_eq, memberTokens_eq]
    refine hasTokens_spread rfl rfl rfl level ?_
    rw [List.forall₂_map_left_iff, List.forall₂_map_right_iff, List.forall₂_same]
    have hblank : SplitsOff [' '] [] := splitsOff_spaces (List.all_eq_true.1 rfl)
    exact fun m hm => hasTokens_member m.1 hblank (ih m hm _)

end OperatorBundle.Json
