import OperatorBundle.Proofs.Yaml.LexerTokens

/-!
Words and empty collections as they are written: on the line of the mark before them or behind a
tag, with the end of their line and the indentation of the next one.
-/

namespace OperatorBundle.Yaml

open OperatorBundle.Text OperatorBundle.Layout

namespace Lexer

/-- What stands behind a node: nothing, or a token on a new line that is no deeper than the
collection around the node. -/
structure Ahead (indent : Int) (next : Nat) (rest : List Char) : Prop where
  solid : Solid rest
  next_le : rest ≠ [] → (next : Int) ≤ indent
  next_eq : rest = [] → next = 0

/-- A candidate on this line or an earlier one that may turn out to be no key. -/
def Loose (cursor : Cursor) (candidate : Option KeyCandidate) : Prop :=
  ∀ k ∈ candidate, k.required = false ∧ k.line ≤ cursor.line

section Words

variable {cursor : Cursor} {tokens : List Token} {indent : Int} {outer : List Int}
  {candidate : Option KeyCandidate} {allowed : Bool} {rest : List Char} {c : Char}

theorem loose_none : Loose cursor none := by
  intro k hk
  cases hk

theorem Loose.past (h : Loose cursor candidate) (cs rest : List Char) :
    Loose (cursor.past cs rest) candidate :=
  fun k hk => ⟨(h k hk).1, (h k hk).2.trans (Nat.le_add_right _ _)⟩

theorem Loose.fresh (h : Loose cursor candidate) (place : Cursor) :
    Loose cursor (fresh place candidate) :=
  fun k hk => h k (Option.filter_eq_some_iff.1 hk).1

variable (tokens allowed) in
theorem Loose.saved (h : Loose cursor candidate) (hcolumn : indent < cursor.column) :
    Loose cursor (saved cursor tokens indent candidate allowed) := by
  cases allowed with
  | false => exact h
  | true =>
    intro k hk
    obtain rfl := Option.some.inj hk
    exact ⟨decide_eq_false (by omega), le_rfl⟩

/-- Behind a line feed a candidate is on an earlier line. -/
theorem Loose.behind (h : Loose cursor candidate) {text : List Char} (htext : '\n' ∈ text)
    (rest : List Char) :
    ∀ k ∈ candidate, k.required = false ∧ k.line < (cursor.past text rest).line := by
  have hbreak : 0 < text.countP isBreak := List.countP_pos_iff.2 ⟨'\n', htext, by decide⟩
  intro k hk
  obtain ⟨hrequired, hline⟩ := h k hk
  refine ⟨hrequired, ?_⟩
  rw [Cursor.past_line]
  omega

theorem isGap_spaces (n : Nat) : IsGap (spaces n) :=
  fun _ hc => .inl (List.mem_replicate.1 hc).2

theorem isGap_line (n : Nat) : IsGap ('\n' :: spaces n) := by
  intro c hc
  rcases List.mem_cons.1 hc with rfl | hc
  · exact .inr rfl
  · exact isGap_spaces n c hc

theorem isGap_nil : IsGap [] := by
  intro c hc
  cases hc

/-- The end of a line is left behind, with the indentation of the next one. -/
theorem leads_lineEnd {indent' : Int} {next : Nat} {place : Cursor} (hloose : Loose place candidate)
    (hplace : place.line ≤ cursor.line)
    (h : cursor.rest = '\n' :: (spaces next ++ rest)) (hahead : Ahead indent' next rest) :
    (inBlock cursor tokens indent outer candidate allowed).Leads
      (.ok (inBlock (cursor.past ('\n' :: spaces next) rest) tokens indent outer none true)) := by
  have hcursor : Loose cursor candidate := fun k hk => ⟨(hloose k hk).1, (hloose k hk).2.trans hplace⟩
  exact leads_line ('\n' :: spaces next) h (isGap_line next) hahead.solid (by simp [isBreak])
    (hcursor.behind List.mem_cons_self rest)

variable {right next column : Nat} {cs : List Char} {asked : Style} {slot : Slot}

/-- What a plain scalar starts with. -/
theorem solid_plain (h : (obstacles cs).plain = false) (hne : cs ≠ []) (rest : List Char) :
    Solid (cs ++ rest) := by
  obtain ⟨c, more, rfl⟩ := List.exists_cons_of_ne_nil hne
  obtain ⟨hwritable, hline, -, -, hstarts, hhead⟩ := plainText_spec h
  intro d hd
  obtain rfl := Option.some.inj hd
  refine ⟨hwritable c List.mem_cons_self, hline c List.mem_cons_self, hhead c rfl, ?_⟩
  rintro rfl
  simp [startsAmiss] at hstarts

/-- A plain scalar and its line. -/
theorem leads_plainLine (hplain : (obstacles cs).plain = false) (hne : cs ≠ [])
    (hrest : cursor.rest = cs ++ '\n' :: (spaces next ++ rest)) (hahead : Ahead indent next rest)
    (hindent : indent < cursor.column) (hsteady : ∀ k ∈ candidate, isStale cursor k = false)
    (hcandidate : allowed = true → candidate = none) (hloose : Loose cursor candidate) :
    (inBlock cursor tokens indent outer candidate allowed).Leads
      (.ok (inBlock (cursor.past (cs ++ '\n' :: spaces next) rest) (.scalar cs true :: tokens)
        indent outer none true)) := by
  have hsolid := solid_plain hplain hne ('\n' :: (spaces next ++ rest))
  have hscalar : plainScalar false (indent + 1) cursor.column
      (cs ++ '\n' :: (spaces next ++ rest)) = .ok ⟨cs, (cs ++ '\n' :: spaces next).length, true⟩ := by
    rw [plainScalar_line hplain hne (by omega) ?_]
    · simp [spaces]
    · intro c hc
      obtain ⟨hwritable, hends, hspace, -⟩ := hahead.solid c hc
      have hnext := hahead.next_le (by rintro rfl; cases hc)
      exact ⟨isPad_of_isWritable hwritable hspace, isBreak_eq_false hends, by omega⟩
  have htaken : cs ++ '\n' :: (spaces next ++ rest) = cs ++ '\n' :: spaces next ++ rest := by simp
  have hfeed : '\n' ∈ cs ++ '\n' :: spaces next := by simp
  have hbehind := (hloose.saved tokens allowed hindent).behind hfeed rest
  obtain ⟨c, more, rfl⟩ := List.exists_cons_of_ne_nil hne
  have hstands : Stands cursor indent candidate c (more ++ '\n' :: (spaces next ++ rest)) :=
    ⟨hrest, hsolid, hindent.le, hsteady⟩
  refine (leads_plain hplain hstands (by simp) htaken (by simp) hscalar hcandidate).trans ?_
  have hline : (inBlock (cursor.past (c :: more ++ '\n' :: spaces next) rest)
      (.scalar (c :: more) true :: tokens) indent outer
      (saved cursor tokens indent candidate allowed) true).Leads _ :=
    leads_line [] rfl isGap_nil hahead.solid rfl (by simpa using hbehind)
  simpa using hline

/-- A scalar in quotes and its line. -/
theorem leads_quotedLine (kind : Quote) {body : List Char}
    (hrest : cursor.rest = kind.char :: (body ++ kind.char :: '\n' :: (spaces next ++ rest)))
    (hscalar : quotedScalar kind (cursor.column + 1)
      (body ++ kind.char :: '\n' :: (spaces next ++ rest)) = .ok (cs, body.length + 1))
    (hahead : Ahead indent next rest)
    (hindent : indent < cursor.column) (hsteady : ∀ k ∈ candidate, isStale cursor k = false)
    (hcandidate : allowed = true → candidate = none) (hloose : Loose cursor candidate) :
    (inBlock cursor tokens indent outer candidate allowed).Leads
      (.ok (inBlock (cursor.past (kind.char :: (body ++ kind.char :: '\n' :: spaces next)) rest)
        (.scalar cs false :: tokens) indent outer none true)) := by
  have hsolid : Solid (kind.char :: (body ++ kind.char :: '\n' :: (spaces next ++ rest))) := by
    intro d hd
    obtain rfl := Option.some.inj hd
    cases kind <;> decide
  have hstands : Stands cursor indent candidate kind.char _ := ⟨hrest, hsolid, hindent.le, hsteady⟩
  have htaken : body ++ kind.char :: '\n' :: (spaces next ++ rest) =
      (body ++ [kind.char]) ++ '\n' :: (spaces next ++ rest) := by simp
  refine (leads_quoted kind hstands htaken (by simpa using hscalar) hcandidate).trans ?_
  have hline : (inBlock (cursor.past (kind.char :: (body ++ [kind.char]))
      ('\n' :: (spaces next ++ rest))) (.scalar cs false :: tokens) indent outer
      (saved cursor tokens indent candidate allowed) false).Leads _ :=
    leads_lineEnd (hloose.saved tokens allowed hindent) (Nat.le_add_right _ _) rfl hahead
  simpa using hline

/-- The columns of a literal below a collection: its lines stand right of what comes next, and where
a header with a number puts them. -/
structure Holds (indent : Int) (right column : Nat) (cs : List Char) : Prop where
  least : (max (indent + 1) 1).toNat ≤ right + column
  hint : hintsIndent cs → (max indent 0).toNat + 2 = right + column

/-- A literal and its lines. -/
theorem leads_literalLines (hliteral : (obstacles cs).literal = false) (hfeeds : breaksAtFeeds cs)
    (hholds : Holds indent right column cs)
    (hrest : cursor.rest = '|' :: (Page.literalMarks cs ++ '\n' ::
      (literalText right column cs (some '\n') ++
        ((if cs.getLast?.any endsLine then [] else ['\n']) ++ (spaces next ++ rest)))))
    (hahead : Ahead indent next rest) (hindent : indent < cursor.column)
    (hsteady : ∀ k ∈ candidate, isStale cursor k = false) (hloose : Loose cursor candidate) :
    (inBlock cursor tokens indent outer candidate allowed).Leads
      (.ok (inBlock (cursor.past ('|' :: (Page.literalMarks cs ++ '\n' ::
        (literalText right column cs (some '\n') ++
          ((if cs.getLast?.any endsLine then [] else ['\n']) ++ spaces next)))) rest)
        (.scalar cs false :: tokens) indent outer none true)) := by
  set tail : List Char := if cs.getLast?.any endsLine then [] else ['\n'] with htail
  have hsolid : ∀ rest, Solid ('|' :: rest) := by
    intro rest d hd
    obtain rfl := Option.some.inj hd
    decide
  have hnext : next < right + column := by
    have hleast := hholds.least
    by_cases hne : rest = []
    · rw [hahead.next_eq hne]
      omega
    · have := hahead.next_le hne
      omega
  have hblank : ∀ c ∈ rest.head?, isPad c = false ∧ isBreak c = false := by
    intro c hc
    obtain ⟨hwritable, hends, hspace, -⟩ := hahead.solid c hc
    exact ⟨isPad_of_isWritable hwritable hspace, isBreak_eq_false hends⟩
  have hscalar := blockScalar_literal right hliteral hfeeds hholds.least hholds.hint hnext hblank
  refine leads_literal ⟨hrest, hsolid _, hindent.le, hsteady⟩ ?_ ?_ (fun k hk => (hloose k hk).1)
  · simp
  · rw [hscalar]
    simp [htail, spaces]
    omega

/-- A scalar is a token, and its line is left behind. -/
theorem leads_word (hslot : slot ≠ .shortKey) (hne : asked.fit cs false = .plain → cs ≠ [])
    (hliteral : asked.fit cs false = .literal → breaksAtFeeds cs ∧ Holds indent right column cs)
    (hcolumn : asked.fit cs false = .single → 0 < column)
    (hrest : cursor.rest = wordText right (asked.fit cs false) column cs ++
      (wordEnd slot (asked.fit cs false) cs ++ (spaces next ++ rest)))
    (hahead : Ahead indent next rest) (hindent : indent < cursor.column)
    (hsteady : ∀ k ∈ candidate, isStale cursor k = false)
    (hcandidate : allowed = true → candidate = none) (hloose : Loose cursor candidate) :
    (inBlock cursor tokens indent outer candidate allowed).Leads
      (.ok (inBlock (cursor.past (wordText right (asked.fit cs false) column cs ++
        (wordEnd slot (asked.fit cs false) cs ++ spaces next)) rest)
        (.scalar cs (asked.fit cs false = .plain) :: tokens) indent outer none true)) := by
  have hend {style : Style} (hstyle : style ≠ .literal) : wordEnd slot style cs = ['\n'] := by
    simp [wordEnd, lineEnd, hstyle, hslot]
  cases hstyle : asked.fit cs false with
  | plain =>
    rw [hstyle, hend (by decide)] at hrest
    rw [hend (by decide)]
    exact leads_plainLine (Style.of_fit_eq_plain hstyle).2.1 (hne hstyle) hrest hahead hindent
      hsteady hcandidate hloose
  | single =>
    rw [hstyle, hend (by decide)] at hrest
    rw [hend (by decide)]
    have hquoted : cursor.rest = Quote.single.char :: (singleText right column cs none ++
        Quote.single.char :: '\n' :: (spaces next ++ rest)) := by
      simpa [wordText, Quote.char] using hrest
    have hbehind : ('\n' :: (spaces next ++ rest)).head? ≠ some '\'' := by simp
    have hscalar := quotedScalar_single right (hcolumn hstyle) (Nat.succ_ne_zero cursor.column)
      hbehind (Style.of_fit_eq_single hstyle)
    have hline : (inBlock cursor tokens indent outer candidate allowed).Leads _ :=
      leads_quotedLine .single hquoted hscalar hahead hindent hsteady hcandidate hloose
    simpa [wordText, Quote.char] using hline
  | double =>
    rw [hstyle, hend (by decide)] at hrest
    rw [hend (by decide)]
    have hquoted : cursor.rest = Quote.double.char :: (cs.flatMap Page.doubleChar ++
        Quote.double.char :: '\n' :: (spaces next ++ rest)) := by
      simpa [wordText, Quote.char] using hrest
    have hscalar := quotedScalar_double cs ('\n' :: (spaces next ++ rest))
      (Nat.succ_ne_zero cursor.column)
    have hline : (inBlock cursor tokens indent outer candidate allowed).Leads _ :=
      leads_quotedLine .double hquoted hscalar hahead hindent hsteady hcandidate hloose
    simpa [wordText, Quote.char] using hline
  | literal =>
    have hend : wordEnd slot .literal cs = if cs.getLast?.any endsLine then [] else ['\n'] := by
      simp [wordEnd, lineEnd, hslot]
    rw [hstyle, hend] at hrest
    rw [hend]
    have hlines : (inBlock cursor tokens indent outer candidate allowed).Leads _ :=
      leads_literalLines (Style.of_fit_eq_literal hstyle).2.1 (hliteral hstyle).1
        (hliteral hstyle).2 (by simpa [wordText] using hrest) hahead hindent hsteady hloose
    simpa [wordText] using hlines

/-- An empty collection is two tokens, and its line is left behind. -/
theorem leads_bracketsLine {c c' : Char} {start stop : Token} (hbrackets : Brackets c c' start stop)
    (hrest : cursor.rest = c :: c' :: '\n' :: (spaces next ++ rest))
    (hahead : Ahead indent next rest) (hindent : indent < cursor.column)
    (hsteady : ∀ k ∈ candidate, isStale cursor k = false)
    (hcandidate : allowed = true → candidate = none) (hloose : Loose cursor candidate) :
    (inBlock cursor tokens indent outer candidate allowed).Leads
      (.ok (inBlock (cursor.past (c :: c' :: '\n' :: spaces next) rest) (stop :: start :: tokens)
        indent outer none true)) := by
  have hsolid : Solid (c :: c' :: '\n' :: (spaces next ++ rest)) := by
    intro d hd
    obtain rfl := Option.some.inj hd
    cases hbrackets <;> decide
  refine (leads_brackets hbrackets ⟨hrest, hsolid, hindent.le, hsteady⟩
    (fun k hk hrequired => absurd hrequired (by simp [(hloose k hk).1])) hcandidate).trans ?_
  have hsaved := (hloose.saved tokens allowed hindent).fresh
    (cursor.past [c] (c' :: '\n' :: (spaces next ++ rest)))
  have hline : (inBlock (cursor.past [c, c'] ('\n' :: (spaces next ++ rest)))
      (stop :: start :: tokens) indent outer _ false).Leads _ :=
    leads_lineEnd hsaved (Nat.le_add_right _ _) rfl hahead
  simpa using hline

/-- A scalar before its colon is a token, which leaves its candidate. -/
theorem leads_keyWord (hne : asked.fit cs true = .plain → cs ≠ []) (hcolumn : 0 < column)
    {after : List Char} (hafter : atGap after)
    (hrest : cursor.rest = wordText right (asked.fit cs true) column cs ++ ':' :: after)
    (hindent : indent ≤ cursor.column) (hsteady : ∀ k ∈ candidate, isStale cursor k = false)
    (hcandidate : allowed = true → candidate = none) :
    (inBlock cursor tokens indent outer candidate allowed).Leads
      (.ok (inBlock (cursor.past (wordText right (asked.fit cs true) column cs) (':' :: after))
        (.scalar cs (asked.fit cs true = .plain) :: tokens) indent outer
        (saved cursor tokens indent candidate allowed) false)) := by
  have hquote (kind : Quote) (rest : List Char) : Solid (kind.char :: rest) := by
    intro d hd
    obtain rfl := Option.some.inj hd
    cases kind <;> decide
  cases hstyle : asked.fit cs true with
  | plain =>
    rw [hstyle] at hrest
    have hplain := (Style.of_fit_eq_plain hstyle).2.1
    have hsolid := solid_plain hplain (hne hstyle) (':' :: after)
    have hscalar : plainScalar false (indent + 1) cursor.column (cs ++ ':' :: after) = _ :=
      plainScalar_key hplain (hne hstyle) hafter (by omega)
    obtain ⟨c, more, rfl⟩ := List.exists_cons_of_ne_nil (hne hstyle)
    exact leads_plain hplain ⟨hrest, hsolid, hindent, hsteady⟩ (by simp) rfl (hne hstyle) hscalar
      hcandidate
  | single =>
    rw [hstyle] at hrest
    have hscalar : quotedScalar .single (cursor.column + 1)
        (singleText right column cs none ++ '\'' :: ':' :: after) = _ :=
      quotedScalar_single right hcolumn (by omega) (by simp) (Style.of_fit_eq_single hstyle)
    have htaken : singleText right column cs none ++ '\'' :: ':' :: after =
        (singleText right column cs none ++ ['\'']) ++ ':' :: after := by simp
    have hquoted : (inBlock cursor tokens indent outer candidate allowed).Leads _ :=
      leads_quoted .single
        ⟨by simpa [wordText, Quote.char] using hrest, hquote .single _, hindent, hsteady⟩ htaken
        (by simpa using hscalar) hcandidate
    simpa [wordText, Quote.char] using hquoted
  | double =>
    rw [hstyle] at hrest
    have hscalar := quotedScalar_double cs (':' :: after) (Nat.succ_ne_zero cursor.column)
    have htaken : cs.flatMap Page.doubleChar ++ '"' :: ':' :: after =
        (cs.flatMap Page.doubleChar ++ ['"']) ++ ':' :: after := by simp
    have hquoted : (inBlock cursor tokens indent outer candidate allowed).Leads _ :=
      leads_quoted .double
        ⟨by simpa [wordText, Quote.char] using hrest, hquote .double _, hindent, hsteady⟩ htaken
        (by simpa using hscalar) hcandidate
    simpa [wordText, Quote.char] using hquoted
  | literal => exact absurd (Style.of_fit_eq_literal hstyle).2.2 (by simp)

end Words

end Lexer

end OperatorBundle.Yaml
