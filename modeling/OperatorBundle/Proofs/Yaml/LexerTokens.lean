import OperatorBundle.Proofs.Yaml.LexerRun
import OperatorBundle.Proofs.Yaml.TagReading
import OperatorBundle.Proofs.Yaml.LiteralReading
import OperatorBundle.Proofs.Yaml.ScalarReading

/-!
The tokens of words: tags, scalars in every style and empty collections, each with the candidate for
a key that it leaves, and the colon that turns a candidate into a key.
-/

namespace OperatorBundle.Yaml

open OperatorBundle.Text

namespace Lexer

section Tokens

variable {cursor : Cursor} {tokens : List Token} {indent : Int} {outer : List Int}
  {candidate : Option KeyCandidate} {allowed : Bool} {rest : List Char} {c : Char}

/-! ### Words -/

/-- A key may start at a place. -/
def candidateAt (cursor : Cursor) (tokens : List Token) (indent : Int) : KeyCandidate :=
  ⟨tokens.length, decide (indent = cursor.column), cursor.offset, cursor.line, cursor.column⟩

/-- The candidate once a key may have started. -/
def saved (cursor : Cursor) (tokens : List Token) (indent : Int) (candidate : Option KeyCandidate)
    (allowed : Bool) : Option KeyCandidate :=
  if allowed then some (candidateAt cursor tokens indent) else candidate

theorem saveCandidate_inBlock (hcandidate : allowed = true → candidate = none) :
    (inBlock cursor tokens indent outer candidate allowed).saveCandidate =
      .ok (inBlock cursor tokens indent outer (saved cursor tokens indent candidate allowed)
        allowed) := by
  cases allowed with
  | false => rfl
  | true =>
    obtain rfl := hcandidate rfl
    rfl

/-- The lexer behind a token, where a key may start or not. -/
theorem allowKey_take (taken : List Char) {n : Nat} (h : cursor.rest = taken ++ rest)
    (hn : n = taken.length) (token : Token) (allowed' : Bool) :
    ((inBlock cursor tokens indent outer candidate allowed).take n token).allowKey allowed' =
      inBlock (cursor.past taken rest) (token :: tokens) indent outer candidate allowed' := by
  subst hn
  rw [take_inBlock taken h]
  rfl

/-- A tag is a token. -/
theorem leads_tag {tag : List Char} (h : Stands cursor indent candidate '!' (tag ++ rest))
    (htag : ∀ c ∈ tag, isGraphic c) (hrest : atGap rest)
    (hcandidate : allowed = true → candidate = none) :
    (inBlock cursor tokens indent outer candidate allowed).Leads
      ((tagToken false ('!' :: tag)).map fun result =>
        inBlock (cursor.past ('!' :: tag) rest) (.tag result.1 :: tokens) indent outer
          (saved cursor tokens indent candidate allowed) false) := by
  obtain ⟨happend, hused⟩ := tagToken_append hrest htag
  have hrest : (inBlock cursor tokens indent outer candidate allowed).cursor.rest =
    '!' :: tag ++ rest := h.rest_eq
  have hdispatch : (inBlock cursor tokens indent outer candidate allowed).token '!' =
      (inBlock cursor tokens indent outer candidate allowed).tag := by
    simp [Lexer.token, hrest, isDocumentMark]
  have htoken : (inBlock cursor tokens indent outer candidate allowed).token '!' =
      tagToken false ('!' :: tag) >>= fun result =>
        .ok (((inBlock cursor tokens indent outer (saved cursor tokens indent candidate allowed)
          allowed).take result.2 (.tag result.1)).allowKey false) := by
    rw [hdispatch, Lexer.tag, saveCandidate_inBlock hcandidate, ← happend, ← hrest]
    rfl
  refine h.leads (htoken.trans ?_) ?_
  · cases hresult : tagToken false ('!' :: tag) with
    | error e => rfl
    | ok result =>
      exact congrArg _ (allowKey_take _ h.rest_eq (hused result.1 result.2 hresult) _ _)
  · rw [h.rest_eq]
    cases tagToken false ('!' :: tag) with
    | error e => simp [Except.map]
    | ok result =>
      show rest.length < ('!' :: tag ++ rest).length
      simp only [List.length_append, List.length_cons]
      omega

/-- A plain scalar is no mark between documents. -/
theorem isDocumentMark_of_plain {cs : List Char} (hstarts : startsAmiss cs = false)
    (hnext : rest.head? ≠ some '-' ∧ rest.head? ≠ some '.') (hne : cs ≠ []) :
    isDocumentMark (cs ++ rest) = false := by
  obtain ⟨c, more, rfl⟩ := List.exists_cons_of_ne_nil hne
  simp only [startsAmiss, Bool.or_eq_false_iff] at hstarts
  obtain ⟨⟨-, hdashes⟩, hdots⟩ := hstarts
  have hmarks {d : Char} (hd : rest.head? ≠ some d)
      (hmark : [d, d, d].isPrefixOf (c :: more) = false) (after : List Char) :
      c :: more ++ rest ≠ d :: d :: d :: after := by
    intro heq
    obtain ⟨rfl, heq⟩ := List.cons.inj heq
    cases more with
    | nil => exact hd (congrArg List.head? heq)
    | cons e more =>
      obtain ⟨rfl, heq⟩ := List.cons.inj heq
      cases more with
      | nil => exact hd (congrArg List.head? heq)
      | cons f more =>
        obtain ⟨rfl, -⟩ := List.cons.inj heq
        simp [List.isPrefixOf] at hmark
  unfold isDocumentMark
  split
  · rename_i after heq
    exact absurd heq (hmarks hnext.1 hdashes after)
  · rename_i after heq
    exact absurd heq (hmarks hnext.2 hdots after)
  · rfl

/-- What starts a plain scalar is no other token. -/
theorem token_plain {cs : List Char} (hplain : (obstacles (c :: cs)).plain = false)
    (h : Stands cursor indent candidate c (cs ++ rest))
    (hnext : rest.head? ≠ some '-' ∧ rest.head? ≠ some '.') :
    (inBlock cursor tokens indent outer candidate allowed).token c =
      (inBlock cursor tokens indent outer candidate allowed).plain := by
  obtain ⟨hwritable, -, -, -, hstarts, hhead⟩ := plainText_spec hplain
  have hdocument : isDocumentMark (c :: (cs ++ rest)) = false :=
    isDocumentMark_of_plain hstarts hnext (by simp)
  have hrest : (inBlock cursor tokens indent outer candidate allowed).cursor.rest =
    c :: (cs ++ rest) := h.rest_eq
  have hflow : (inBlock cursor tokens indent outer candidate allowed).inFlow = false := rfl
  have hpad : isPad c = false :=
    isPad_of_isWritable (hwritable c List.mem_cons_self) (hhead c rfl)
  simp only [startsAmiss, Bool.or_eq_false_iff] at hstarts
  obtain ⟨⟨⟨hmarks, hseparated⟩, -⟩, -⟩ := hstarts
  by_cases hc : ['?', ':', '-'].contains c
  · have hgap : atGap (cs ++ rest) = false := by
      rw [hc, Bool.true_and] at hseparated
      cases cs with
      | nil => cases hseparated
      | cons d more =>
        by_contra hgap
        have hd := separates_of_atGap (show atGap (d :: (more ++ rest)) by simpa using hgap)
        rw [separatedNext, hd] at hseparated
        cases hseparated
    simp only [List.contains_cons, List.contains_nil, Bool.or_false, Bool.or_eq_true,
      beq_iff_eq] at hc
    rcases hc with rfl | rfl | rfl <;> simp [Lexer.token, hrest, hdocument, hgap, hflow, isPad]
  · simp only [List.contains_cons, List.contains_nil, Bool.or_false, Bool.or_eq_true, beq_iff_eq,
      not_or, Bool.or_eq_false_iff, beq_eq_false_iff_ne] at hmarks hc
    simp [Lexer.token, hrest, hdocument, hmarks, hc, hpad, indicators]

theorem length_lt_of_append {taken after text : List Char} (h : text = taken ++ after)
    (hne : taken ≠ []) : after.length < text.length := by
  have := List.length_pos_iff.2 hne
  rw [h, List.length_append]
  omega

/-- A plain scalar is a token, behind which a key may start if it ended its line. -/
theorem leads_plain {cs taken after : List Char} {broken : Bool}
    (hplain : (obstacles (c :: cs)).plain = false)
    (h : Stands cursor indent candidate c (cs ++ rest))
    (hnext : rest.head? ≠ some '-' ∧ rest.head? ≠ some '.')
    (htaken : c :: cs ++ rest = taken ++ after) (hne : taken ≠ [])
    (hscalar : plainScalar false (indent + 1) cursor.column (c :: cs ++ rest) =
      .ok ⟨c :: cs, taken.length, broken⟩)
    (hcandidate : allowed = true → candidate = none) :
    (inBlock cursor tokens indent outer candidate allowed).Leads
      (.ok (inBlock (cursor.past taken after) (.scalar (c :: cs) true :: tokens) indent outer
        (saved cursor tokens indent candidate allowed) broken)) := by
  have hrest : cursor.rest = c :: cs ++ rest := h.rest_eq
  refine h.leads ?_ (length_lt_of_append (hrest.trans htaken) hne)
  rw [token_plain hplain h hnext, Lexer.plain, saveCandidate_inBlock hcandidate]
  show plainScalar false (indent + 1) cursor.column cursor.rest >>= _ = _
  rw [hrest, hscalar]
  exact congrArg _ (allowKey_take _ (hrest.trans htaken) rfl _ _)

/-- A scalar in quotes is a token. -/
theorem leads_quoted (kind : Quote) {cs taken after : List Char}
    (h : Stands cursor indent candidate kind.char rest) (htaken : rest = taken ++ after)
    (hscalar : quotedScalar kind (cursor.column + 1) rest = .ok (cs, taken.length))
    (hcandidate : allowed = true → candidate = none) :
    (inBlock cursor tokens indent outer candidate allowed).Leads
      (.ok (inBlock (cursor.past (kind.char :: taken) after) (.scalar cs false :: tokens) indent
        outer (saved cursor tokens indent candidate allowed) false)) := by
  have hrest : cursor.rest = kind.char :: taken ++ after := by
    rw [h.rest_eq, htaken]
    rfl
  have hcursor : (inBlock cursor tokens indent outer candidate allowed).cursor.rest =
    kind.char :: rest := h.rest_eq
  have hdispatch : (inBlock cursor tokens indent outer candidate allowed).token kind.char =
      (inBlock cursor tokens indent outer candidate allowed).quoted kind := by
    cases kind <;> simp [Lexer.token, hcursor, isDocumentMark, Quote.char]
  refine h.leads ?_ (length_lt_of_append hrest (by simp))
  rw [hdispatch, Lexer.quoted, saveCandidate_inBlock hcandidate]
  show quotedScalar kind (cursor.column + 1) (cursor.rest.drop 1) >>= _ = _
  rw [h.rest_eq]
  show quotedScalar kind (cursor.column + 1) rest >>= _ = _
  rw [hscalar]
  exact congrArg _ (allowKey_take _ hrest rfl _ _)

/-- A literal is a token. -/
theorem leads_literal {cs taken after : List Char}
    (h : Stands cursor indent candidate '|' rest) (htaken : rest = taken ++ after)
    (hscalar : blockScalar false indent rest = .ok (cs, taken.length))
    (hcandidate : ∀ k ∈ candidate, k.required = false) :
    (inBlock cursor tokens indent outer candidate allowed).Leads
      (.ok (inBlock (cursor.past ('|' :: taken) after) (.scalar cs false :: tokens) indent
        outer none true)) := by
  have hrest : cursor.rest = '|' :: taken ++ after := by
    rw [h.rest_eq, htaken]
    rfl
  have hcursor : (inBlock cursor tokens indent outer candidate allowed).cursor.rest =
    '|' :: rest := h.rest_eq
  have hflow : (inBlock cursor tokens indent outer candidate allowed).inFlow = false := rfl
  have hdispatch : (inBlock cursor tokens indent outer candidate allowed).token '|' =
      (inBlock cursor tokens indent outer candidate allowed).block false := by
    simp [Lexer.token, hcursor, isDocumentMark, hflow]
  have hdrop : (inBlock cursor tokens indent outer candidate allowed).dropCandidate =
      .ok (inBlock cursor tokens indent outer none allowed) := by
    cases hcand : candidate with
    | none => rfl
    | some k =>
      show (if k.required = true then _ else _) = _
      rw [hcandidate k hcand]
      rfl
  refine h.leads ?_ (length_lt_of_append hrest (by simp))
  rw [hdispatch, Lexer.block, hdrop]
  show blockScalar false indent (cursor.rest.drop 1) >>= _ = _
  rw [h.rest_eq]
  show blockScalar false indent rest >>= _ = _
  rw [hscalar]
  exact congrArg _ (allowKey_take _ hrest rfl _ _)

/-! ### Brackets -/

/-- A pair of brackets and the tokens they stand for. -/
inductive Brackets : Char → Char → Token → Token → Prop
  | sequence : Brackets '[' ']' .flowSequenceStart .flowSequenceEnd
  | mapping : Brackets '\x7b' '\x7d' .flowMappingStart .flowMappingEnd

/-- The lexer behind an opening bracket. -/
def inBrackets (cursor : Cursor) (tokens : List Token) (indent : Int) (outer : List Int)
    (candidate : Option KeyCandidate) : Lexer :=
  ⟨cursor, tokens, tokens.length, indent, outer, none, [candidate], true⟩

theorem arrive_inBrackets {c : Char} (hrest : cursor.rest = c :: rest) (hsolid : Solid (c :: rest))
    (hcandidate : ∀ k ∈ candidate, k.required → isStale cursor k = false) :
    (inBrackets cursor tokens indent outer candidate).arrive =
      .ok (inBrackets cursor tokens indent outer (fresh cursor candidate)) := by
  obtain ⟨hwritable, hends, hspace, hcomment⟩ := hsolid c rfl
  have hbreak := isBreak_eq_false hends
  have htab : c ≠ '\t' := by
    rintro rfl
    exact absurd hwritable (by decide)
  have hmark : c ≠ '\ufeff' := by
    rintro rfl
    exact absurd hwritable (by decide)
  have hblanks : blanks true cursor.rest cursor.column true false 0 = (0, true) := by
    rw [hrest]
    simp [blanks, hbreak, hspace, hcomment, htab, hmark]
  have hskip : (inBrackets cursor tokens indent outer candidate).skipBlanks =
      inBrackets cursor tokens indent outer candidate := by
    show ((inBrackets cursor tokens indent outer candidate).advance
      (blanks true cursor.rest cursor.column true false 0).1).allowKey
        (blanks true cursor.rest cursor.column true false 0).2 = _
    rw [hblanks]
    rfl
  have hnone : ([none, candidate].any fun c => c.any (isStale cursor) && c.any (·.required)) =
      false := by
    cases hcand : candidate with
    | none => rfl
    | some k =>
      by_cases hrequired : k.required
      · simp [hcandidate k hcand hrequired]
      · simp [hrequired]
  have hstale : (inBrackets cursor tokens indent outer candidate).dropStale =
      .ok (inBrackets cursor tokens indent outer (fresh cursor candidate)) := by
    unfold dropStale inBrackets
    dsimp only
    rw [hnone]
    rfl
  rw [arrive, hskip, hstale]
  rfl

theorem isStale_candidateAt {text : List Char} (hline : ∀ c ∈ text, isBreak c = false)
    (hsize : byteCount text ≤ keyLimit) :
    isStale (cursor.past text rest) (candidateAt cursor tokens indent) = false := by
  have hcount : text.countP isBreak = 0 := List.countP_eq_zero.2 (by simpa using hline)
  show (decide (cursor.line < cursor.line + text.countP isBreak) ||
    decide (cursor.offset + keyLimit < cursor.offset + byteCount text)) = false
  rw [hcount, Bool.or_eq_false_iff, decide_eq_false_iff_not, decide_eq_false_iff_not]
  omega

/-- The bracket that opens a collection. -/
theorem token_openBracket {c c' : Char} {start stop : Token} (hbrackets : Brackets c c' start stop)
    (hrest : cursor.rest = c :: rest) (hcandidate : allowed = true → candidate = none) :
    (inBlock cursor tokens indent outer candidate allowed).token c =
      .ok (inBrackets (cursor.past [c] rest) (start :: tokens) indent outer
        (saved cursor tokens indent candidate allowed)) := by
  have hcursor : (inBlock cursor tokens indent outer candidate allowed).cursor.rest = c :: rest :=
    hrest
  have hdispatch : (inBlock cursor tokens indent outer candidate allowed).token c =
      (inBlock cursor tokens indent outer candidate allowed).openFlow start := by
    cases hbrackets <;> simp [Lexer.token, hcursor, isDocumentMark]
  have hadvance : cursor.advance 1 = cursor.past [c] rest := Cursor.advance_eq [c] hrest
  rw [hdispatch, openFlow, saveCandidate_inBlock hcandidate, ← hadvance]
  rfl

/-- The bracket that closes it. -/
theorem token_closeBracket {c c' : Char} {start stop : Token} (hbrackets : Brackets c c' start stop)
    (hrest : cursor.rest = c' :: rest) :
    (inBrackets cursor tokens indent outer candidate).token c' =
      .ok (inBlock (cursor.past [c'] rest) (stop :: tokens) indent outer candidate false) := by
  have hcursor : (inBrackets cursor tokens indent outer candidate).cursor.rest = c' :: rest := hrest
  have hdispatch : (inBrackets cursor tokens indent outer candidate).token c' =
      (inBrackets cursor tokens indent outer candidate).closeFlow stop := by
    cases hbrackets <;> simp [Lexer.token, hcursor, isDocumentMark]
  have hadvance : cursor.advance 1 = cursor.past [c'] rest := Cursor.advance_eq [c'] hrest
  rw [hdispatch, closeFlow, ← hadvance]
  rfl

/-- An empty collection is two tokens. -/
theorem leads_brackets {c c' : Char} {start stop : Token} (hbrackets : Brackets c c' start stop)
    (h : Stands cursor indent candidate c (c' :: rest))
    (hstale : ∀ k ∈ candidate, k.required → isStale (cursor.past [c] (c' :: rest)) k = false)
    (hcandidate : allowed = true → candidate = none) :
    (inBlock cursor tokens indent outer candidate allowed).Leads
      (.ok (inBlock (cursor.past [c, c'] rest) (stop :: start :: tokens) indent outer
        (fresh (cursor.past [c] (c' :: rest)) (saved cursor tokens indent candidate allowed))
        false)) := by
  have hsolid : Solid (c' :: rest) := by
    intro d hd
    obtain rfl := Option.some.inj hd
    cases hbrackets <;> decide
  set opened := cursor.past [c] (c' :: rest) with hopened
  have hsaved : ∀ k ∈ saved cursor tokens indent candidate allowed, k.required →
      isStale opened k = false := by
    intro k hk hrequired
    cases allowed with
    | false => exact hstale k hk hrequired
    | true =>
      obtain rfl := Option.some.inj hk
      refine isStale_candidateAt ?_ ?_
      · cases hbrackets <;> exact List.all_iff_forall_prop.1 (by decide)
      · cases hbrackets <;> decide
  have hopenedRest : opened.rest = c' :: rest := rfl
  have hcloses (candidate : Option KeyCandidate) :
      (inBrackets opened (start :: tokens) indent outer candidate).token c' =
        .ok (inBlock (cursor.past [c, c'] rest) (stop :: start :: tokens) indent outer candidate
          false) := by
    have hclose : (inBrackets opened (start :: tokens) indent outer candidate).token c' = _ :=
      token_closeBracket hbrackets hopenedRest
    rwa [hopened, Cursor.past_past] at hclose
  refine (h.leads (token_openBracket hbrackets h.rest_eq hcandidate) ?_).trans
    (Leads.token (arrive_inBrackets hopenedRest hsolid hsaved) rfl (hcloses _) ?_)
  · rw [h.rest_eq]
    show (c' :: rest).length < _
    simp
  · show rest.length < (c' :: rest).length
    simp

/-! ### Keys without a mark -/

theorem insertAt_inBlock (later : List Token) (token : Token) :
    (inBlock cursor (later ++ tokens) indent outer candidate allowed).insertAt tokens.length token =
      inBlock cursor (later ++ token :: tokens) indent outer candidate allowed := by
  have hlater : (later ++ tokens).length - tokens.length = later.length := by
    rw [List.length_append]
    omega
  show (⟨cursor, (later ++ tokens).take ((later ++ tokens).length - tokens.length) ++
    token :: (later ++ tokens).drop ((later ++ tokens).length - tokens.length),
    (later ++ tokens).length + 1, indent, outer, candidate, [], allowed⟩ : Lexer) = _
  rw [hlater, List.take_left, List.drop_left]
  simp [inBlock, Nat.add_assoc]

theorem openBlock_at {column : Nat} (h : indent < column) (later tokens : List Token)
    (token : Token) :
    (inBlock cursor (later ++ tokens) indent outer candidate allowed).openBlock column
        (some tokens.length) token =
      inBlock cursor (later ++ token :: tokens) column (indent :: outer) candidate allowed := by
  have hopens : (!(inBlock cursor (later ++ tokens) indent outer candidate allowed).inFlow &&
      decide (indent < column)) = true := decide_eq_true h
  exact (if_pos hopens).trans (insertAt_inBlock later token)

/-- The collection of a key without a mark is open once its colon has come. -/
def openedAt (indent : Int) (outer : List Int) (column : Nat) : Int × List Int :=
  if indent < column then (column, indent :: outer) else (indent, outer)

/-- The token that opens a collection at a column, unless it is open. -/
def opening (indent : Int) (column : Nat) (start : Token) : List Token :=
  if indent < column then [start] else []

/-- **A colon behind a key** makes the key one, and opens its mapping where it starts. -/
theorem leads_colon {place : Cursor} {later : List Token}
    (h : Stands cursor indent (some (candidateAt place tokens indent)) ':' rest)
    (hrest : atGap rest) :
    (inBlock cursor (later ++ tokens) indent outer (some (candidateAt place tokens indent))
      false).Leads
      (.ok (inBlock (cursor.past [':'] rest)
        (.value :: (later ++ .key :: (opening indent place.column .blockMappingStart ++ tokens)))
        (openedAt indent outer place.column).1 (openedAt indent outer place.column).2 none
        false)) := by
  set candidate := candidateAt place tokens indent with hcandidate
  have hcursor : (inBlock cursor (later ++ tokens) indent outer (some candidate) false).cursor.rest =
    ':' :: rest := h.rest_eq
  have hdispatch : (inBlock cursor (later ++ tokens) indent outer (some candidate) false).token ':' =
      (inBlock cursor (later ++ tokens) indent outer (some candidate) false).valueMark := by
    simp [Lexer.token, hcursor, isDocumentMark, hrest]
  have hopens : (inBlock cursor (later ++ .key :: tokens) indent outer (some candidate)
      false).openBlock place.column (some tokens.length) .blockMappingStart =
        inBlock cursor (later ++ .key :: (opening indent place.column .blockMappingStart ++ tokens))
          (openedAt indent outer place.column).1 (openedAt indent outer place.column).2
          (some candidate) false := by
    by_cases hlt : indent < place.column
    · have hopen : (inBlock cursor ((later ++ [.key]) ++ tokens) indent outer (some candidate)
          false).openBlock place.column (some tokens.length) .blockMappingStart = _ :=
        openBlock_at hlt (later ++ [.key]) tokens .blockMappingStart
      simp only [List.append_assoc, List.singleton_append] at hopen
      rw [hopen, opening, openedAt, if_pos hlt, if_pos hlt]
      rfl
    · rw [openBlock_of_not_lt hlt, opening, openedAt, if_neg hlt, if_neg hlt]
      rfl
  have htoken : (inBlock cursor (later ++ tokens) indent outer (some candidate) false).valueMark =
      .ok (({ ((inBlock cursor (later ++ tokens) indent outer (some candidate) false).insertAt
        tokens.length .key).openBlock place.column (some tokens.length) .blockMappingStart with
          candidate := none }.take 1 .value).allowKey false) := rfl
  refine h.leads (hdispatch.trans (htoken.trans ?_)) ?_
  · rw [insertAt_inBlock, hopens]
    exact congrArg _ (allowKey_take [':'] h.rest_eq rfl _ _)
  · rw [h.rest_eq]
    show rest.length < _
    simp

end Tokens

end Lexer

end OperatorBundle.Yaml
