import OperatorBundle.Proofs.Yaml.Characters
import OperatorBundle.Yaml.Scalar.Plain
import OperatorBundle.Yaml.Scalar.Quoted
import OperatorBundle.Yaml.Scalar.Block

/-!
Scalars read back. In each of its styles a scalar is read as the text that was written, wherever it
stands and whatever comes behind it, as long as that does not belong to the scalar.
-/

namespace OperatorBundle.Yaml

open OperatorBundle.Text

/-- The blanks since the last character of a scalar, latest first. -/
def Gap.ofPads (pads : List Char) : Gap := ⟨pads, false, Option.none, []⟩

@[simp] theorem Gap.folded_ofPads (pads : List Char) : (Gap.ofPads pads).folded = pads := rfl

@[simp] theorem Gap.addPad_ofPads (pads : List Char) (c : Char) :
    (Gap.ofPads pads).addPad c = Gap.ofPads (c :: pads) := rfl

theorem Gap.none_eq : Gap.none = Gap.ofPads [] := rfl

/-! ### Plain scalars -/

section Plain

/-- The neighbours in a plain scalar that would end it. -/
def plainEnds (a b : Char) : Bool := (a = ':' && separates b) || (separates a && b = '#')

variable {cs : List Char} {indent : Int}

theorem separates_of_atGap {c : Char} {rest : List Char} (h : atGap (c :: rest)) : separates c := by
  rcases Bool.or_eq_true_iff.1 h with h | h
  · simp [separates, h]
  · simp [separates, endsLine_of_isBreak h]

theorem plainRest_space (rest : List Char) (column used : Nat) (pads text : List Char) :
    plainRest false indent (' ' :: rest) column (Gap.ofPads pads) text used =
      plainRest false indent rest (column + 1) (Gap.ofPads (' ' :: pads)) text (used + 1) := by
  rw [plainRest]
  simp [isPad, Gap.ofPads, Gap.addPad]

theorem plainRest_char {c : Char} {rest : List Char} {column : Nat} {pads : List Char}
    (hpad : isPad c = false) (hbreak : isBreak c = false) (hcolon : c = ':' → atGap rest = false)
    (hpads : pads ≠ [] → c ≠ '#' ∧ indent ≤ column ∧ column ≠ 0) (text : List Char) (used : Nat) :
    plainRest false indent (c :: rest) column (Gap.ofPads pads) text used =
      plainRest false indent rest (column + 1) Gap.none (c :: (pads ++ text)) (used + 1) := by
  have hstays : ((Gap.ofPads pads).isOpen && ((!false && decide ((column : Int) < indent)) ||
      decide (c = '#') || (decide (column = 0) && isDocumentMark (c :: rest)))) = false := by
    cases pads with
    | nil => rfl
    | cons d pads =>
      obtain ⟨hcomment, hindent, hcolumn⟩ := hpads (by simp)
      simp [hcomment, hcolumn, Int.not_lt.2 hindent]
  have hgoes : (decide (c = ':') && atGap rest || false && flowMarks.contains c) = false := by
    by_cases hc : c = ':' <;> simp [hc, hcolon]
  rw [plainRest, if_neg (by simp [hpad]), if_neg (by simp [hbreak]), if_neg (by simpa using hstays)]
  rw [if_neg (by simp), if_neg (by simpa using hgoes)]
  rfl

/-- A plain scalar is read up to its last character. -/
theorem plainRest_append {cs : List Char} (rest : List Char) (column used : Nat)
    (pads text : List Char) (hne : cs ≠ []) (hwritable : ∀ c ∈ cs, isWritable c)
    (hline : ∀ c ∈ cs, endsLine c = false) (hends : anyPair plainEnds cs = false)
    (hlast : ∀ c ∈ cs.getLast?, c ≠ ':' ∧ c ≠ ' ') (hcolumn : indent ≤ column + 1)
    (hpads : pads ≠ [] → cs.head? ≠ some '#' ∧ indent ≤ column ∧ column ≠ 0) :
    plainRest false indent (cs ++ rest) column (Gap.ofPads pads) text used =
      plainRest false indent rest (column + cs.length) Gap.none (cs.reverse ++ (pads ++ text))
        (used + cs.length) := by
  induction cs generalizing column pads text used with
  | nil => exact absurd rfl hne
  | cons c more ih =>
    obtain ⟨hc, hmore⟩ := List.forall_mem_cons.1 hwritable
    obtain ⟨hcLine, hmoreLine⟩ := List.forall_mem_cons.1 hline
    rw [anyPair_cons, Bool.or_eq_false_iff] at hends
    obtain ⟨hnext, hmoreEnds⟩ := hends
    have hmoreLast : ∀ d ∈ more.getLast?, d ≠ ':' ∧ d ≠ ' ' := by
      intro d hd
      exact hlast d (by rw [List.getLast?_cons, Option.mem_def.1 hd]; rfl)
    rw [List.cons_append]
    by_cases hspace : c = ' '
    · subst hspace
      have hmoreNe : more ≠ [] := by
        rintro rfl
        exact (hlast ' ' rfl).2 rfl
      have hhead : more.head? ≠ some '#' := by
        intro hhead
        rw [hhead] at hnext
        exact absurd hnext (by decide)
      rw [plainRest_space, ih _ _ _ _ hmoreNe hmore hmoreLine hmoreEnds hmoreLast (by omega)
        (fun _ => ⟨hhead, by omega, by omega⟩)]
      simp [Nat.add_assoc, Nat.add_comm 1]
    · have hbreak := isBreak_eq_false hcLine
      have hcolon : c = ':' → atGap (more ++ rest) = false := by
        rintro rfl
        cases more with
        | nil => exact absurd rfl (hlast ':' rfl).1
        | cons d more =>
          by_contra hgap
          have hgap' : atGap (d :: (more ++ rest)) := by simpa using hgap
          have hseparates := separates_of_atGap hgap'
          simp [plainEnds, hseparates] at hnext
      rw [plainRest_char (isPad_of_isWritable hc hspace) hbreak hcolon
        (fun h => ⟨fun hcomment => (hpads h).1 (by rw [hcomment]; rfl), (hpads h).2⟩), Gap.none_eq]
      cases more with
      | nil => simp
      | cons d more =>
        rw [ih _ _ _ _ (by simp) hmore hmoreLine hmoreEnds hmoreLast (by omega) (by simp)]
        simp [Gap.none_eq, Nat.add_assoc, Nat.add_comm 1]

/-- What a plain scalar needs of its text. -/
theorem plainText_spec (h : (obstacles cs).plain = false) :
    (∀ c ∈ cs, isWritable c) ∧ (∀ c ∈ cs, endsLine c = false) ∧ anyPair plainEnds cs = false ∧
      (∀ c ∈ cs.getLast?, c ≠ ':' ∧ c ≠ ' ') ∧ startsAmiss cs = false ∧
      ∀ c ∈ cs.head?, c ≠ ' ' := by
  have hcs := of_plain h
  simp only [obstacles_plain, Bool.or_eq_false_iff] at h
  obtain ⟨⟨⟨-, hhead⟩, hlast⟩, hstarts⟩ := h.1
  obtain ⟨hpairs, hcolon⟩ := Bool.or_eq_false_iff.1 h.2
  refine ⟨isWritable_of_single hcs.1, hcs.2, hpairs, ?_, hstarts, ?_⟩
  · intro c hc
    rw [Option.mem_def.1 hc] at hlast hcolon
    simp_all
  · intro c hc
    rw [Option.mem_def.1 hc] at hhead
    simp_all

/-- A plain scalar that its colon follows. -/
theorem plainScalar_key {cs rest : List Char} {column : Nat} (h : (obstacles cs).plain = false)
    (hne : cs ≠ []) (hrest : atGap rest) (hcolumn : indent ≤ column + 1) :
    plainScalar false indent column (cs ++ ':' :: rest) = .ok ⟨cs, cs.length, false⟩ := by
  obtain ⟨hwritable, hline, hends, hlast, -, -⟩ := plainText_spec h
  rw [plainScalar, Gap.none_eq, plainRest_append _ _ _ _ _ hne hwritable hline hends hlast hcolumn
    (by simp), plainRest]
  simp [isPad, isBreak, Gap.isOpen, Gap.none, hrest, PlainScalar.endingBefore]

/-- The indentation of a line leaves no trace in a plain scalar. -/
theorem plainRest_spaces (next : Nat) (rest : List Char) (column used : Nat) {gap : Gap}
    (hgap : gap.broken = true) (text : List Char) :
    plainRest false indent (spaces next ++ rest) column gap text used =
      plainRest false indent rest (column + next) gap text (used + next) := by
  induction next generalizing column used with
  | zero => rfl
  | succ next ih =>
    have hpad : gap.addPad ' ' = gap := by simp [Gap.addPad, hgap]
    show plainRest false indent (' ' :: (spaces next ++ rest)) column gap text used = _
    rw [plainRest, if_pos (by decide), if_neg (by simp), hpad, ih]
    congr 1 <;> omega

/-- A plain scalar at the end of its line takes the indentation of the next line too. -/
theorem plainScalar_line {cs rest : List Char} {column next : Nat}
    (h : (obstacles cs).plain = false) (hne : cs ≠ []) (hcolumn : indent ≤ column + 1)
    (hrest : ∀ c ∈ rest.head?, isPad c = false ∧ isBreak c = false ∧ (next : Int) < indent) :
    plainScalar false indent column (cs ++ '\n' :: (spaces next ++ rest)) =
      .ok ⟨cs, cs.length + (next + 1), true⟩ := by
  obtain ⟨hwritable, hline, hends, hlast, -, -⟩ := plainText_spec h
  rw [plainScalar, Gap.none_eq, plainRest_append _ _ _ _ _ hne hwritable hline hends hlast hcolumn
    (by simp), plainRest, if_neg (by decide), if_pos (by decide), plainRest_spaces next rest _ _ rfl]
  cases rest with
  | nil =>
    simp [plainRest, PlainScalar.endingBefore, Gap.addBreak, Gap.none]
    omega
  | cons c rest =>
    obtain ⟨hpad, hbreak, hnext⟩ := hrest c rfl
    simp [plainRest, PlainScalar.endingBefore, Gap.addBreak, Gap.none, Gap.isOpen, hpad, hbreak,
      hnext]
    omega

end Plain

/-! ### Quoted scalars -/

section Quoted

theorem quotedRest_spaces (kind : Quote) (next : Nat) (rest : List Char) (column used : Nat)
    {gap : Gap} (hgap : gap.broken = true) (text : List Char) :
    quotedRest kind (spaces next ++ rest) column .text gap text used =
      quotedRest kind rest (column + next) .text gap text (used + next) := by
  induction next generalizing column used with
  | zero => rfl
  | succ next ih =>
    have hpad : gap.addPad ' ' = gap := by simp [Gap.addPad, hgap]
    show quotedRest kind (' ' :: (spaces next ++ rest)) column .text gap text used = _
    rw [quotedRest, if_pos (by decide), hpad, ih]
    congr 1 <;> omega

/-- What stands between two characters of a scalar in single quotes: blanks, or breaks that stay. -/
inductive Gap.Holds : Gap → List Char → Option Char → Prop
  | pads (pads : List Char) : Holds (.ofPads pads) pads Option.none
  | separator {c : Char} (hc : c ≠ '\n') (more : List Char) (b : Char) :
    Holds ⟨[], true, some c, more⟩ (more ++ [c]) (some b)
  | feeds (c : Char) (more : List Char) (b : Char) :
    Holds ⟨[], true, some '\n', c :: more⟩ (c :: more) (some b)

theorem Gap.Holds.folded {gap : Gap} {held : List Char} {broken : Option Char}
    (h : gap.Holds held broken) : gap.folded = held := by
  cases h with
  | pads | feeds => rfl
  | separator hc more b =>
    simp only [Gap.folded, if_true]

theorem Gap.Holds.broken {gap : Gap} {held : List Char} {broken : Option Char}
    (h : gap.Holds held broken) : gap.broken = broken.isSome := by
  cases h <;> rfl

/-- A further break stays. -/
theorem Gap.Holds.addBreak {gap : Gap} {held : List Char} {b : Char}
    (h : gap.Holds held (some b)) (c : Char) : (gap.addBreak c).Holds (c :: held) (some c) := by
  cases h with
  | separator hc more => exact .separator hc (c :: more) c
  | feeds d more => exact .feeds c (d :: more) c

/-- A first break stays unless it is a line feed. -/
theorem Gap.holds_addBreak {c : Char} (hc : c ≠ '\n') :
    ((Gap.ofPads []).addBreak c).Holds [c] (some c) :=
  .separator hc [] c

/-- Two line feeds stand for one. -/
theorem Gap.holds_addBreak_addBreak :
    (((Gap.ofPads []).addBreak '\n').addBreak '\n').Holds ['\n'] (some '\n') :=
  .feeds '\n' [] '\n'

theorem quotedRest_margin (right : Nat) {indent : Nat} (hindent : 0 < indent) {gap : Gap}
    {held : List Char} {broken : Option Char} (hgap : gap.Holds held broken) (column : Nat)
    (hcolumn : broken = none → column ≠ 0) (rest text : List Char) (used : Nat) :
    ∃ column', column' ≠ 0 ∧
      quotedRest .single (margin right indent broken ++ rest) column .text gap text used =
        quotedRest .single rest column' .text gap text
          (used + (margin right indent broken).length) := by
  cases broken with
  | none => exact ⟨column, hcolumn rfl, rfl⟩
  | some b =>
    have hpositive : 0 < if b = '\n' then right + indent else indent := by
      split <;> omega
    have hlength : (margin right indent (some b)).length =
        if b = '\n' then right + indent else indent := List.length_replicate
    rw [hlength]
    exact ⟨_, by omega, quotedRest_spaces .single _ rest column used hgap.broken text⟩

theorem quotedRest_break {c : Char} (hc : isBreak c) (kind : Quote) (rest : List Char)
    (column : Nat) (gap : Gap) (text : List Char) (used : Nat) :
    quotedRest kind (c :: rest) column .text gap text used =
      quotedRest kind rest 0 .text (gap.addBreak c) text (used + 1) := by
  have hpad : isPad c = false := by
    simp only [isBreak, Bool.or_eq_true, decide_eq_true_eq] at hc
    rcases hc with (rfl | rfl) | rfl <;> decide
  rw [quotedRest, if_neg (by simp [hpad]), if_pos hc]

theorem quotedRest_drift (right : Nat) {gap : Gap} {b : Char} (hgap : gap.broken = true) (c : Char)
    (column : Nat) (rest text : List Char) (used : Nat) :
    ∃ column', quotedRest .single (drift right (some b) c ++ rest) column .text gap text used =
      quotedRest .single rest column' .text gap text (used + (drift right (some b) c).length) := by
  unfold drift
  split
  · have hlength : (spaces right).length = right := List.length_replicate
    rw [hlength]
    exact ⟨_, quotedRest_spaces .single right rest column used hgap text⟩
  · exact ⟨column, rfl⟩

/-- A break and what is written before it. The first of several breaks is written twice if it is a
line feed. -/
theorem quotedRest_lineBreak (right : Nat) {c : Char} (hbreak : isBreak c) {gap : Gap}
    {held : List Char} {broken : Option Char} (hgap : gap.Holds held broken)
    (hheld : broken = none → held = []) (column : Nat) (rest text : List Char) (used : Nat) :
    ∃ gap' : Gap, gap'.Holds (c :: held) (some c) ∧
      quotedRest .single ((if broken.isNone && c = '\n' then ['\n'] else []) ++
          drift right broken c ++ c :: rest) column .text gap text used =
        quotedRest .single rest 0 .text gap' text
          (used + ((if broken.isNone && c = '\n' then ['\n'] else []) ++
            drift right broken c ++ [c]).length) := by
  cases broken with
  | none =>
    have hnil : held = [] := hheld rfl
    cases hgap with
    | pads pads =>
    subst hnil
    have hdrift : drift right none c = [] := by simp [drift]
    rw [hdrift]
    by_cases hfeed : c = '\n'
    · subst hfeed
      refine ⟨_, Gap.holds_addBreak_addBreak, ?_⟩
      show quotedRest .single ('\n' :: '\n' :: rest) column .text (.ofPads []) text used = _
      rw [quotedRest_break hbreak, quotedRest_break hbreak]
      rfl
    · refine ⟨_, Gap.holds_addBreak hfeed, ?_⟩
      rw [if_neg (by simp [hfeed])]
      exact quotedRest_break hbreak .single rest column _ text used
  | some b =>
    obtain ⟨column', hdrift⟩ := quotedRest_drift right (b := b) hgap.broken c column (c :: rest) text
      used
    refine ⟨_, hgap.addBreak c, ?_⟩
    rw [if_neg (by simp), List.nil_append, hdrift, quotedRest_break hbreak, List.length_append,
      Nat.add_assoc]
    rfl

/-- A character between single quotes. A quote is written twice. -/
theorem quotedRest_char {c : Char} {column : Nat} (hpad : isPad c = false)
    (hbreak : isBreak c = false) (hcolumn : column ≠ 0) (gap : Gap) (rest text : List Char)
    (used : Nat) :
    ∃ column', column' ≠ 0 ∧
      quotedRest .single ((if c = '\'' then ['\''] else []) ++ c :: rest) column .text gap text
          used =
        quotedRest .single rest column' .text Gap.none (c :: (gap.folded ++ text))
          (used + ((if c = '\'' then ['\''] else []) ++ [c]).length) := by
  by_cases hquote : c = '\''
  · subst hquote
    refine ⟨column + 1 + 1, by omega, ?_⟩
    rw [if_pos rfl, List.singleton_append, quotedRest, if_neg (by decide), if_neg (by decide)]
    dsimp only
    rw [if_neg (by simp [hcolumn]), if_pos (by rfl), quotedRest, if_pos rfl]
    rfl
  · refine ⟨column + 1, by omega, ?_⟩
    rw [if_neg hquote, List.nil_append, quotedRest, if_neg (by simp [hpad]), if_neg (by simp [hbreak])]
    dsimp only
    rw [if_neg (by simp [hcolumn]), if_neg (show c ≠ Quote.single.char from hquote),
      if_neg (by simp)]
    rfl

/-- The quote that closes a text in single quotes. -/
theorem quotedRest_close {rest : List Char} (hrest : rest.head? ≠ some '\'') {column : Nat}
    (hcolumn : column ≠ 0) (gap : Gap) (text : List Char) (used : Nat) :
    quotedRest .single ('\'' :: rest) column .text gap text used =
      .ok ((gap.folded ++ text).reverse, used + 1) := by
  rw [quotedRest, if_neg (by decide), if_neg (by decide)]
  dsimp only
  rw [if_neg (by simp [hcolumn]), if_pos (by rfl)]
  cases rest with
  | nil => rfl
  | cons d rest =>
    have hd : d ≠ '\'' := fun h => hrest (congrArg some h)
    rw [quotedRest, if_neg hd]

/-- A text in single quotes is read as the text. -/
theorem quotedRest_singleText (right : Nat) {indent : Nat} (hindent : 0 < indent) {cs : List Char}
    {rest : List Char} (hrest : rest.head? ≠ some '\'') (hwritable : ∀ c ∈ cs, isWritable c)
    (hbreakSpace : anyPair (fun a b => endsLine a && b = ' ') cs = false)
    (hspaceBreak : anyPair (fun a b => a = ' ' && endsLine b) cs = false)
    {gap : Gap} {held : List Char} {broken : Option Char} (hgap : gap.Holds held broken)
    (hhead : broken.isSome → cs.head? ≠ some ' ')
    (hheld : broken = none → held ≠ [] → ∀ c ∈ cs.head?, endsLine c = false)
    (column : Nat) (hcolumn : broken = none → column ≠ 0) (text : List Char) (used : Nat) :
    quotedRest .single (singleText right indent cs broken ++ '\'' :: rest) column .text gap text
        used =
      .ok ((held ++ text).reverse ++ cs,
        used + (singleText right indent cs broken).length + 1) := by
  induction cs generalizing gap held broken column text used with
  | nil =>
    obtain ⟨column', hcolumn', hmargin⟩ :=
      quotedRest_margin right hindent hgap column hcolumn ('\'' :: rest) text used
    rw [singleText, hmargin, quotedRest_close hrest hcolumn', hgap.folded, List.append_nil]
  | cons c more ih =>
    obtain ⟨hc, hmore⟩ := List.forall_mem_cons.1 hwritable
    rw [anyPair_cons, Bool.or_eq_false_iff] at hbreakSpace hspaceBreak
    obtain ⟨hafterBreak, hmoreBreak⟩ := hbreakSpace
    obtain ⟨hafterSpace, hmoreSpace⟩ := hspaceBreak
    replace ih := @ih hmore hmoreBreak hmoreSpace
    unfold singleText
    by_cases hspace : c = ' '
    · have hnone : broken = none := by
        cases broken with
        | none => rfl
        | some b => exact absurd (congrArg some hspace) (hhead rfl)
      subst hnone hspace
      cases hgap with
      | pads pads =>
      have hnext : ∀ d ∈ more.head?, endsLine d = false := by
        intro d hd
        rw [Option.mem_def.1 hd] at hafterSpace
        simpa using hafterSpace
      rw [if_pos rfl, List.cons_append, quotedRest, if_pos (by decide), Gap.addPad_ofPads,
        ih (.pads (' ' :: held)) (by simp) (fun _ _ => hnext) _ (by simp)]
      simp [Nat.add_assoc, Nat.add_comm 1]
    · rw [if_neg hspace]
      by_cases hends : endsLine c
      · have hbreak := isBreak_of_endsLine hends hc
        have hnext : more.head? ≠ some ' ' := by
          intro h
          simp [h, hends] at hafterBreak
        have hheld' : broken = none → held = [] := by
          intro hnone
          by_contra hne
          rw [hheld hnone hne c rfl] at hends
          cases hends
        obtain ⟨gap', hgap', hread⟩ := quotedRest_lineBreak right hbreak hgap hheld' column
          (singleText right indent more (some c) ++ '\'' :: rest) text used
        rw [if_pos hends, List.append_assoc, List.cons_append, hread,
          ih hgap' (fun _ => hnext) (by simp) 0 (by simp)]
        simp
        omega
      · have hbreak := isBreak_eq_false (by simpa using hends)
        obtain ⟨column', hcolumn', hmargin⟩ := quotedRest_margin right hindent hgap column hcolumn
          ((if c = '\'' then ['\''] else []) ++
            c :: (singleText right indent more none ++ '\'' :: rest)) text used
        obtain ⟨column'', hcolumn'', hchar⟩ := quotedRest_char (isPad_of_isWritable hc hspace)
          hbreak hcolumn' gap (singleText right indent more none ++ '\'' :: rest) text
          (used + (margin right indent broken).length)
        rw [if_neg hends, List.append_assoc, List.append_assoc, List.cons_append, hmargin, hchar,
          Gap.none_eq, ih (.pads []) (by simp) (by simp) column'' (fun _ => hcolumn''),
          hgap.folded]
        simp
        omega

/-- A scalar in single quotes is read up to its closing quote. -/
theorem quotedScalar_single (right : Nat) {indent column : Nat} (hindent : 0 < indent)
    (hcolumn : column ≠ 0) {cs rest : List Char} (hrest : rest.head? ≠ some '\'')
    (h : (obstacles cs).single = false) :
    quotedScalar .single column (singleText right indent cs none ++ '\'' :: rest) =
      .ok (cs, (singleText right indent cs none).length + 1) := by
  have hwritable := isWritable_of_single h
  simp only [obstacles, Bool.or_eq_false_iff] at h
  rw [quotedScalar, Gap.none_eq, quotedRest_singleText right hindent hrest hwritable h.1.1 h.1.2
    (.pads []) (by simp) (by simp) column (fun _ => hcolumn)]
  simp

/-! Escape sequences -/

/-- The letters of escape sequences stand for the characters they are written for. -/
theorem escapedChar?_of_escapeLetter? {c letter : Char} (h : Page.escapeLetter? c = some letter) :
    escapeLength? letter = none ∧ escapedChar? letter = some c :=
  (show ∀ pair ∈ (_ : List (Char × Char)),
    escapeLength? pair.2 = none ∧ escapedChar? pair.2 = some pair.1 by decide) (c, letter)
    (mem_of_lookup h)

/-- A code point of two digits. -/
theorem natAfter?_hexDigits_two {n : Nat} (hn : n ≤ 0xFF) :
    (Page.hexDigits 2 n).length = 2 ∧ natAfter? 16 0 (Page.hexDigits 2 n) = some n := by
  have hall : ∀ n < 0x100,
      (Page.hexDigits 2 n).length = 2 ∧ natAfter? 16 0 (Page.hexDigits 2 n) = some n := by
    decide +kernel
  exact hall n (by omega)

/-- A code point of four digits. -/
theorem natAfter?_hexDigits_four {n : Nat} (hn : n ∈ unwritten) :
    (Page.hexDigits 4 n).length = 4 ∧ natAfter? 16 0 (Page.hexDigits 4 n) = some n := by
  have hall : ∀ n ∈ unwritten,
      (Page.hexDigits 4 n).length = 4 ∧ natAfter? 16 0 (Page.hexDigits 4 n) = some n := by
    decide +kernel
  exact hall n hn

theorem charOfCode?_toNat (c : Char) : charOfCode? c.toNat = some c := by
  have hvalid : c.toNat < 0xD800 ∨ 0xDFFF < c.toNat ∧ c.toNat < 0x110000 := c.valid
  rw [charOfCode?, if_pos (by omega), Char.ofNat_toNat]

/-- The digits of a code point are read as the character. -/
theorem quotedRest_digits {digits : List Char} {value n : Nat} {c : Char} (hne : digits ≠ [])
    (hn : natAfter? 16 value digits = some n) (hc : charOfCode? n = some c) (kind : Quote)
    (rest : List Char) (column : Nat) (gap : Gap) (text : List Char) (used : Nat) :
    quotedRest kind (digits ++ rest) column (.code digits.length value) gap text used =
      quotedRest kind rest (column + digits.length) .text Gap.none (c :: text)
        (used + digits.length) := by
  induction digits generalizing value column used gap with
  | nil => exact absurd rfl hne
  | cons d more ih =>
    obtain ⟨v, hv, hmore⟩ : ∃ v, digitValue? d = some v ∧
        natAfter? 16 (value * 16 + v) more = some n := by
      rw [natAfter?, Option.bind_eq_bind, Option.bind_eq_some_iff] at hn
      obtain ⟨v, hv, hmore⟩ := hn
      exact ⟨v, (Option.filter_eq_some_iff.1 hv).1, hmore⟩
    rw [List.cons_append, quotedRest, hv]
    dsimp only
    cases more with
    | nil =>
      obtain rfl := Option.some.inj hmore
      rw [if_pos (by simp), hc]
      rfl
    | cons e more =>
      rw [if_neg (by simp only [List.length_cons]; omega)]
      refine (ih (by simp) hmore (column + 1) Gap.none (used + 1)).trans ?_
      congr 1 <;> simp only [List.length_cons] <;> omega

theorem quotedRest_backslash (column : Nat) (gap : Gap) (rest text : List Char) (used : Nat) :
    quotedRest .double ('\\' :: rest) column .text gap text used =
      quotedRest .double rest (column + 1) .escape Gap.none (gap.folded ++ text) (used + 1) := by
  rw [quotedRest, if_neg (by decide), if_neg (by decide)]
  dsimp only
  rw [if_neg (by simp [isDocumentMark]), if_neg (by decide), if_pos (by decide)]

/-- A code point behind its letter is read as the character. -/
theorem quotedRest_code {letter : Char} {digits : List Char} {c : Char}
    (hletter : isBreak letter = false) (hlength : escapeLength? letter = some digits.length)
    (hdigits : digits.length ≠ 0) (hn : natAfter? 16 0 digits = some c.toNat) (rest : List Char)
    (column : Nat) (pads text : List Char) (used : Nat) :
    quotedRest .double ('\\' :: letter :: digits ++ rest) column .text (.ofPads pads) text used =
      quotedRest .double rest (column + 1 + 1 + digits.length) .text (.ofPads [])
        (c :: (pads ++ text)) (used + ('\\' :: letter :: digits).length) := by
  have hne : digits ≠ [] := fun h => hdigits (by rw [h]; rfl)
  rw [List.cons_append, quotedRest_backslash, List.cons_append, quotedRest,
    if_neg (by simp [hletter]), hlength]
  dsimp only
  rw [quotedRest_digits hne hn (charOfCode?_toNat c)]
  simp only [List.length_cons, Gap.none_eq, Gap.folded_ofPads]
  congr 1
  omega

/-- A character between double quotes is read back, as a blank or as one that ends the blanks. -/
theorem quotedRest_doubleChar (c : Char) {column : Nat} (hcolumn : column ≠ 0)
    (pads rest text : List Char) (used : Nat) :
    ∃ column' pads' text', column' ≠ 0 ∧ pads' ++ text' = c :: (pads ++ text) ∧
      quotedRest .double (Page.doubleChar c ++ rest) column .text (.ofPads pads) text used =
        quotedRest .double rest column' .text (.ofPads pads') text'
          (used + (Page.doubleChar c).length) := by
  have hescaped := escaped_doubleChar c
  generalize Page.doubleChar c = cs at hescaped ⊢
  cases hescaped with
  | plain hwritable hline hquote hbackslash =>
    by_cases hspace : c = ' '
    · subst hspace
      refine ⟨column + 1, ' ' :: pads, text, by omega, rfl, ?_⟩
      rw [List.singleton_append, quotedRest, if_pos (by decide)]
      rfl
    · have hbreak := isBreak_eq_false hline
      refine ⟨column + 1, [], c :: (pads ++ text), by omega, rfl, ?_⟩
      rw [List.singleton_append, quotedRest, if_neg (by simp [isPad_of_isWritable hwritable hspace]),
        if_neg (by simp [hbreak])]
      dsimp only
      rw [if_neg (by simp [hcolumn]), if_neg (show c ≠ Quote.double.char from hquote),
        if_neg (by simp [hbackslash])]
      rfl
  | letter hlookup =>
    obtain ⟨hlength, hchar⟩ := escapedChar?_of_escapeLetter? hlookup
    have hbreak := isBreak_eq_false (endsLine_of_isGraphic (isGraphic_of_escapeLetter? hlookup))
    refine ⟨column + 1 + 1, [], c :: (pads ++ text), by omega, rfl, ?_⟩
    rw [List.cons_append, quotedRest_backslash, List.singleton_append, quotedRest,
      if_neg (by simp [hbreak]), hlength, hchar]
    rfl
  | two hsmall =>
    obtain ⟨hlength, hvalue⟩ := natAfter?_hexDigits_two hsmall
    have hletter : isBreak 'x' = false := by decide
    exact ⟨_, [], _, by omega, rfl, quotedRest_code hletter (by rw [hlength]; rfl) (by omega) hvalue
      rest column pads text used⟩
  | four hmem =>
    obtain ⟨hlength, hvalue⟩ := natAfter?_hexDigits_four hmem
    have hletter : isBreak 'u' = false := by decide
    exact ⟨_, [], _, by omega, rfl, quotedRest_code hletter (by rw [hlength]; rfl) (by omega) hvalue
      rest column pads text used⟩

/-- A text between double quotes is read as the text. -/
theorem quotedRest_double (rest : List Char) {column : Nat} (hcolumn : column ≠ 0)
    (cs pads text : List Char) (used : Nat) :
    quotedRest .double (cs.flatMap Page.doubleChar ++ '"' :: rest) column .text (.ofPads pads) text
        used =
      .ok ((pads ++ text).reverse ++ cs, used + (cs.flatMap Page.doubleChar).length + 1) := by
  induction cs generalizing column pads text used with
  | nil =>
    rw [List.flatMap_nil, List.nil_append, quotedRest, if_neg (by decide), if_neg (by decide)]
    dsimp only
    rw [if_neg (by simp [hcolumn]), if_pos (by rfl)]
    simp
  | cons c more ih =>
    obtain ⟨column', pads', text', hcolumn', htext, hchar⟩ := quotedRest_doubleChar c hcolumn pads
      (more.flatMap Page.doubleChar ++ '"' :: rest) text used
    rw [List.flatMap_cons, List.append_assoc, hchar, ih hcolumn', htext]
    simp
    omega

/-- A scalar in double quotes is read up to its closing quote. -/
theorem quotedScalar_double (cs rest : List Char) {column : Nat} (hcolumn : column ≠ 0) :
    quotedScalar .double column (cs.flatMap Page.doubleChar ++ '"' :: rest) =
      .ok (cs, (cs.flatMap Page.doubleChar).length + 1) := by
  rw [quotedScalar, Gap.none_eq, quotedRest_double rest hcolumn]
  simp

end Quoted

end OperatorBundle.Yaml
