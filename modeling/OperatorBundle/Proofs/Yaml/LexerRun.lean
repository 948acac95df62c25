import Mathlib.Tactic.Common
import OperatorBundle.Proofs.Yaml.Characters
import OperatorBundle.Yaml.Token.Lexer

/-!
The run of the lexer. A run leads from one lexer to another in steps that compose; outside brackets
the lexer comes to its next token over blanks and breaks, leaves candidates for a key behind on
earlier lines, closes the collections that the column shuts out, and opens one at a mark.

* `Leads`: a run goes on as that of another lexer, and the text it has taken is enough for its steps.
* `leads_line`, `leads_close`, `leads_mark`, `leads_open`: what is left behind by a line, by the end
  of a collection and by the marks before items, keys and values.
-/

namespace OperatorBundle.Yaml

open OperatorBundle.Text

/-! ### Places -/

theorem byteCount_append (cs more : List Char) :
    byteCount (cs ++ more) = byteCount cs + byteCount more := by
  induction cs with
  | nil => simp [byteCount]
  | cons c rest ih =>
    show c.utf8Size + byteCount (rest ++ more) = c.utf8Size + byteCount rest + byteCount more
    omega

/-- The column behind a text. -/
def columnPast (column : Nat) : List Char → Nat
  | [] => column
  | c :: rest => columnPast (if isBreak c then 0 else column + 1) rest

@[simp] theorem columnPast_append (column : Nat) (cs more : List Char) :
    columnPast column (cs ++ more) = columnPast (columnPast column cs) more := by
  induction cs generalizing column with
  | nil => rfl
  | cons c rest ih => exact ih _

theorem columnPast_of_line {cs : List Char} (h : ∀ c ∈ cs, isBreak c = false) (column : Nat) :
    columnPast column cs = column + cs.length := by
  induction cs generalizing column with
  | nil => rfl
  | cons c rest ih =>
    obtain ⟨hc, hrest⟩ := List.forall_mem_cons.1 h
    rw [columnPast, if_neg (by simp [hc]), ih hrest, List.length_cons]
    omega

@[simp] theorem columnPast_spaces (column n : Nat) : columnPast column (spaces n) = column + n := by
  have hspaces : ∀ c ∈ spaces n, isBreak c = false := by
    intro c hc
    rw [(List.mem_replicate.1 hc).2]
    decide
  rw [columnPast_of_line hspaces]
  simp [spaces]

/-- Behind a break a line starts. -/
theorem columnPast_of_getLast? {cs : List Char} (h : cs.getLast? = some '\n') (column : Nat) :
    columnPast column cs = 0 := by
  obtain ⟨before, rfl⟩ := List.getLast?_eq_some_iff.1 h
  simp [columnPast, isBreak]

namespace Cursor

/-- The place behind a text. -/
def past (cursor : Cursor) (cs rest : List Char) : Cursor :=
  ⟨rest, cursor.offset + byteCount cs, cursor.line + cs.countP isBreak, columnPast cursor.column cs⟩

@[simp] theorem past_rest (cursor : Cursor) (cs rest : List Char) :
    (cursor.past cs rest).rest = rest := rfl

@[simp] theorem past_column (cursor : Cursor) (cs rest : List Char) :
    (cursor.past cs rest).column = columnPast cursor.column cs := rfl

@[simp] theorem past_line (cursor : Cursor) (cs rest : List Char) :
    (cursor.past cs rest).line = cursor.line + cs.countP isBreak := rfl

@[simp] theorem past_offset (cursor : Cursor) (cs rest : List Char) :
    (cursor.past cs rest).offset = cursor.offset + byteCount cs := rfl

@[simp] theorem past_past (cursor : Cursor) (cs more rest rest' : List Char) :
    (cursor.past cs rest).past more rest' = cursor.past (cs ++ more) rest' := by
  simp [past, byteCount_append, Nat.add_assoc]

theorem past_nil {cursor : Cursor} {rest : List Char} (h : cursor.rest = rest) :
    cursor.past [] rest = cursor := by
  obtain rfl := h
  rfl

theorem advance_eq {cursor : Cursor} (cs : List Char) {rest : List Char}
    (h : cursor.rest = cs ++ rest) :
    cursor.advance cs.length = cursor.past cs rest := by
  induction cs generalizing cursor with
  | nil => exact (past_nil h).symm
  | cons c more ih =>
    have hstep : cursor.step = cursor.past [c] (more ++ rest) := by
      unfold step past
      rw [h, List.cons_append]
      by_cases hc : isBreak c <;> simp [hc, columnPast, byteCount]
    rw [List.length_cons, advance, hstep, ih rfl, past_past]
    rfl

end Cursor

namespace Lexer

/-! ### Closing blocks -/

/-- Where indentations close for what comes next: at its column, or all at the end of the text. -/
def edge (lx : Lexer) : Int := if lx.cursor.rest = [] then -1 else lx.cursor.column

/-- The lexer at its next token, with the blocks closed that do not hold it. -/
def arrive (lx : Lexer) : Except Fault Lexer :=
  lx.skipBlanks.dropStale.map fun lx => lx.closeBlocks lx.edge

/-- The run from a token on, or the end of it. -/
def resume (fuel : Nat) (lx : Lexer) : Except Fault Lexer :=
  lx.cursor.rest.head?.elim lx.dropCandidate fun c => lx.token c >>= run fuel

theorem closing_closing {wide narrow : Int} (h : narrow ≤ wide) (indent : Int) (outer : List Int) :
    closing narrow indent outer =
      ((closing wide indent outer).1 +
          (closing narrow (closing wide indent outer).2.1 (closing wide indent outer).2.2).1,
        (closing narrow (closing wide indent outer).2.1 (closing wide indent outer).2.2).2) := by
  induction outer generalizing indent with
  | nil => rfl
  | cons next more ih =>
    by_cases hwide : wide < indent
    · have hnarrow : narrow < indent := by omega
      simp only [closing, if_pos hwide, if_pos hnarrow]
      rw [ih next]
      simp [Nat.add_right_comm]
    · simp only [closing, if_neg hwide, Nat.zero_add]

theorem closeBlocks_closeBlocks {wide narrow : Int} (h : narrow ≤ wide) (lx : Lexer) :
    (lx.closeBlocks wide).closeBlocks narrow = lx.closeBlocks narrow := by
  unfold closeBlocks
  by_cases hflow : lx.inFlow
  · simp [hflow]
  · have hflow' : ∀ (tokens : List Token) (count : Nat) (indent : Int) (outer : List Int),
        ({ lx with tokens := tokens, count := count, indent := indent, outerIndents := outer } :
          Lexer).inFlow = false := by
      intro tokens count indent outer
      simpa [inFlow] using hflow
    rw [if_neg hflow, if_neg (by simp [hflow']), if_neg hflow]
    simp only [closing_closing h lx.indent lx.outerIndents]
    simp [← List.append_assoc, List.replicate_append_replicate, Nat.add_comm, Nat.add_assoc]

theorem run_succ (fuel : Nat) (lx : Lexer) : lx.run (fuel + 1) = lx.arrive >>= resume fuel := by
  rw [run, arrive]
  cases hstale : lx.skipBlanks.dropStale with
  | error e => rfl
  | ok lx' =>
    dsimp only [bind, Except.bind, Except.map, resume]
    have hcursor (column : Int) : (lx'.closeBlocks column).cursor = lx'.cursor := by
      unfold closeBlocks
      split <;> rfl
    rw [hcursor, hcursor, edge]
    cases hrest : lx'.cursor.rest with
    | nil =>
      simp only [List.head?_nil, Option.elim_none, if_true, finish]
      rw [closeBlocks_closeBlocks (by omega)]
    | cons c rest => simp

/-! ### Runs -/

/-- What is left to read. -/
def left (next : Except Fault Lexer) : Nat := next.toOption.elim 0 fun lx => lx.cursor.rest.length

@[simp] theorem left_ok (lx : Lexer) : left (.ok lx) = lx.cursor.rest.length := rfl

@[simp] theorem left_error (e : Fault) : left (.error e) = 0 := rfl

/-- **A run leads on**: in some steps, for which the text that they take is enough, the lexer comes
to where it would go on as another one, or to a fault. -/
def Leads (lx : Lexer) (next : Except Fault Lexer) : Prop :=
  ∃ steps, steps + left next ≤ lx.cursor.rest.length ∧
    ∀ fuel, lx.run (steps + (fuel + 1)) = next >>= run (fuel + 1)

theorem Leads.trans {lx lx' : Lexer} {next : Except Fault Lexer} (h : lx.Leads (.ok lx'))
    (h' : lx'.Leads next) : lx.Leads next := by
  obtain ⟨steps, hsteps, hrun⟩ := h
  obtain ⟨steps', hsteps', hrun'⟩ := h'
  refine ⟨steps + steps', ?_, fun fuel => ?_⟩
  · have : steps + lx'.cursor.rest.length ≤ lx.cursor.rest.length := hsteps
    omega
  · rw [← hrun' fuel, Nat.add_assoc, ← Nat.add_assoc steps' fuel 1, hrun]
    rfl

/-- Lexers that arrive alike run alike. -/
theorem Leads.of_arrive {lx lx' : Lexer} (h : lx.arrive = lx'.arrive)
    (hrest : lx'.cursor.rest.length ≤ lx.cursor.rest.length) : lx.Leads (.ok lx') := by
  refine ⟨0, by simpa using hrest, fun fuel => ?_⟩
  rw [Nat.zero_add, run_succ, h, ← run_succ]
  rfl

/-- Lexers that go on with the same token run alike. -/
theorem Leads.of_token {lx lx' here here' : Lexer} {c : Char} {rest : List Char}
    (harrive : lx.arrive = .ok here) (harrive' : lx'.arrive = .ok here')
    (hrest : here.cursor.rest = c :: rest) (hrest' : here'.cursor.rest = c :: rest)
    (htoken : here.token c = here'.token c)
    (hle : lx'.cursor.rest.length ≤ lx.cursor.rest.length) : lx.Leads (.ok lx') := by
  refine ⟨0, by simpa using hle, fun fuel => ?_⟩
  have hresume : resume fuel here = resume fuel here' := by
    rw [resume, resume, hrest, hrest']
    exact congrArg (· >>= run fuel) htoken
  rw [Nat.zero_add, run_succ, harrive]
  refine (Eq.trans ?_ (run_succ fuel lx').symm : _ = lx'.run (fuel + 1))
  rw [harrive']
  exact hresume

/-- A token is a step. -/
theorem Leads.token {lx here : Lexer} {next : Except Fault Lexer} {c : Char} {rest : List Char}
    (harrive : lx.arrive = .ok here) (hrest : here.cursor.rest = c :: rest)
    (htoken : here.token c = next) (hleft : left next < lx.cursor.rest.length) :
    lx.Leads next := by
  refine ⟨1, by omega, fun fuel => ?_⟩
  rw [Nat.add_comm 1, run_succ, harrive]
  show resume (fuel + 1) here = _
  rw [resume, hrest]
  exact congrArg (· >>= run (fuel + 1)) htoken

/-! ### Outside brackets -/

/-- The lexer outside brackets. -/
def inBlock (cursor : Cursor) (tokens : List Token) (indent : Int) (outer : List Int)
    (candidate : Option KeyCandidate) (allowed : Bool) : Lexer :=
  ⟨cursor, tokens, tokens.length, indent, outer, candidate, [], allowed⟩

/-- A token may start here. -/
def Solid (rest : List Char) : Prop :=
  ∀ c ∈ rest.head?, isWritable c ∧ endsLine c = false ∧ c ≠ ' ' ∧ c ≠ '#'

/-- Blanks and line feeds. -/
def IsGap (gap : List Char) : Prop := ∀ c ∈ gap, c = ' ' ∨ c = '\n'

section InBlock

variable {cursor : Cursor} {tokens : List Token} {indent : Int} {outer : List Int}
  {candidate : Option KeyCandidate} {allowed : Bool} {gap rest : List Char} {token : Token}

theorem advance_inBlock (h : cursor.rest = gap ++ rest) :
    (inBlock cursor tokens indent outer candidate allowed).advance gap.length =
      inBlock (cursor.past gap rest) tokens indent outer candidate allowed := by
  unfold advance inBlock
  dsimp only
  rw [Cursor.advance_eq _ h]

variable (gap) in
theorem take_inBlock (h : cursor.rest = gap ++ rest) :
    (inBlock cursor tokens indent outer candidate allowed).take gap.length token =
      inBlock (cursor.past gap rest) (token :: tokens) indent outer candidate allowed :=
  advance_inBlock h

theorem blanks_gap (hgap : IsGap gap) (hrest : Solid rest) (column : Nat) (allowed : Bool)
    (used : Nat) :
    blanks false (gap ++ rest) column allowed false used =
      (used + gap.length, allowed || gap.any isBreak) := by
  induction gap generalizing column allowed used with
  | nil =>
    cases rest with
    | nil => simp [blanks]
    | cons c rest =>
      obtain ⟨hwritable, hends, hspace, hcomment⟩ := hrest c rfl
      have hbreak := isBreak_eq_false hends
      have htab : c ≠ '\t' := by
        rintro rfl
        exact absurd hwritable (by decide)
      have hmark : c ≠ '\ufeff' := by
        rintro rfl
        exact absurd hwritable (by decide)
      simp [blanks, hbreak, hspace, hcomment, htab, hmark]
  | cons c more ih =>
    obtain ⟨hc, hmore⟩ := List.forall_mem_cons.1 hgap
    rw [List.cons_append, blanks]
    rcases hc with rfl | rfl
    · rw [if_neg (by decide), if_neg (by decide), if_pos (by simp), ih hmore]
      simp [isBreak, Nat.add_assoc, Nat.add_comm 1]
    · rw [if_pos (by decide), ih hmore]
      simp [isBreak, Nat.add_assoc, Nat.add_comm 1]

theorem skipBlanks_inBlock (h : cursor.rest = gap ++ rest) (hgap : IsGap gap)
    (hrest : Solid rest) :
    (inBlock cursor tokens indent outer candidate allowed).skipBlanks =
      inBlock (cursor.past gap rest) tokens indent outer candidate (allowed || gap.any isBreak) := by
  have hblanks := blanks_gap hgap hrest cursor.column allowed 0
  rw [← h, Nat.zero_add] at hblanks
  show ((inBlock cursor tokens indent outer candidate allowed).advance
    (blanks false cursor.rest cursor.column allowed false 0).1).allowKey
      (blanks false cursor.rest cursor.column allowed false 0).2 = _
  rw [hblanks, advance_inBlock h]
  rfl

/-- The candidate that is left at a cursor. -/
def fresh (cursor : Cursor) (candidate : Option KeyCandidate) : Option KeyCandidate :=
  candidate.filter fun k => !isStale cursor k

theorem dropStale_inBlock (h : ∀ k ∈ candidate, k.required → isStale cursor k = false) :
    (inBlock cursor tokens indent outer candidate allowed).dropStale =
      .ok (inBlock cursor tokens indent outer (fresh cursor candidate) allowed) := by
  have hnone : ([candidate].any fun c => c.any (isStale cursor) && c.any (·.required)) = false := by
    cases candidate with
    | none => rfl
    | some k =>
      by_cases hrequired : k.required
      · simp [h k rfl hrequired]
      · simp [hrequired]
  unfold dropStale inBlock
  dsimp only
  rw [hnone]
  rfl

theorem closeBlocks_inBlock (column : Int) :
    (inBlock cursor tokens indent outer candidate allowed).closeBlocks column =
      inBlock cursor (List.replicate (closing column indent outer).1 .blockEnd ++ tokens)
        (closing column indent outer).2.1 (closing column indent outer).2.2 candidate allowed := by
  have hflow : (inBlock cursor tokens indent outer candidate allowed).inFlow = false := rfl
  rw [closeBlocks, if_neg (by simp [hflow])]
  simp [inBlock, Nat.add_comm]

/-- Nothing closes where the innermost collection goes on. -/
theorem closeBlocks_of_le {column : Int} (h : indent ≤ column) :
    (inBlock cursor tokens indent outer candidate allowed).closeBlocks column =
      inBlock cursor tokens indent outer candidate allowed := by
  have hclosing : closing column indent outer = (0, indent, outer) := by
    cases outer with
    | nil => rfl
    | cons next more => rw [closing, if_neg (by omega)]
  rw [closeBlocks_inBlock, hclosing]
  rfl

/-- The innermost collection closes left of its column. -/
theorem closeBlocks_of_lt {column next : Int} (h : column < indent) :
    (inBlock cursor tokens indent (next :: outer) candidate allowed).closeBlocks column =
      (inBlock cursor (.blockEnd :: tokens) next outer candidate allowed).closeBlocks column := by
  rw [closeBlocks_inBlock, closeBlocks_inBlock, closing, if_pos h]
  simp [List.replicate_succ', inBlock]

variable (gap) in
theorem arrive_inBlock (h : cursor.rest = gap ++ rest) (hgap : IsGap gap) (hrest : Solid rest)
    (hcandidate : ∀ k ∈ candidate, k.required → isStale (cursor.past gap rest) k = false) :
    (inBlock cursor tokens indent outer candidate allowed).arrive =
      .ok ((inBlock (cursor.past gap rest) tokens indent outer
        (fresh (cursor.past gap rest) candidate) (allowed || gap.any isBreak)).closeBlocks
          (if rest = [] then -1 else columnPast cursor.column gap)) := by
  rw [arrive, skipBlanks_inBlock h hgap hrest, dropStale_inBlock hcandidate]
  rfl

variable (gap) in
/-- The lexer comes to the next token of the innermost collection. -/
theorem arrive_of_le (h : cursor.rest = gap ++ rest) (hgap : IsGap gap) (hrest : Solid rest)
    (hne : rest ≠ []) (hindent : indent ≤ columnPast cursor.column gap)
    (hcandidate : ∀ k ∈ candidate, k.required → isStale (cursor.past gap rest) k = false) :
    (inBlock cursor tokens indent outer candidate allowed).arrive =
      .ok (inBlock (cursor.past gap rest) tokens indent outer
        (fresh (cursor.past gap rest) candidate) (allowed || gap.any isBreak)) := by
  rw [arrive_inBlock gap h hgap hrest hcandidate, if_neg hne, closeBlocks_of_le hindent]

variable (gap) in
/-- A line without a key is left behind. -/
theorem leads_line (h : cursor.rest = gap ++ rest) (hgap : IsGap gap) (hrest : Solid rest)
    (hallowed : (allowed || gap.any isBreak) = true)
    (hcandidate : ∀ k ∈ candidate, k.required = false ∧ k.line < (cursor.past gap rest).line) :
    (inBlock cursor tokens indent outer candidate allowed).Leads
      (.ok (inBlock (cursor.past gap rest) tokens indent outer none true)) := by
  have hfresh : fresh (cursor.past gap rest) candidate = none := by
    cases candidate with
    | none => rfl
    | some k =>
      have hstale : isStale (cursor.past gap rest) k = true :=
        Bool.or_eq_true_iff.2 (.inl (decide_eq_true (hcandidate k rfl).2))
      simp [fresh, hstale]
  have hnil : IsGap [] := by
    intro c hc
    cases hc
  refine Leads.of_arrive ?_ ?_
  · rw [arrive_inBlock gap h hgap hrest, arrive_inBlock [] rfl hnil hrest (by simp), hfresh,
      hallowed]
    · rw [Cursor.past_past, List.append_nil]
      rfl
    · intro k hk hrequired
      rw [(hcandidate k hk).1] at hrequired
      cases hrequired
  · show rest.length ≤ cursor.rest.length
    rw [h, List.length_append]
    omega

/-- A block closes before what stands left of its column. -/
theorem leads_close {next : Int} (h : cursor.rest = rest) (hrest : Solid rest)
    (hnext : next < indent) (hcolumn : rest ≠ [] → (cursor.column : Int) ≤ next)
    (hleast : -1 ≤ next) :
    (inBlock cursor tokens indent (next :: outer) none true).Leads
      (.ok (inBlock cursor (.blockEnd :: tokens) next outer none true)) := by
  have hnil : IsGap [] := by
    intro c hc
    cases hc
  have hlt : (if rest = [] then (-1 : Int) else columnPast cursor.column []) < indent := by
    split
    · omega
    · rename_i hne
      have := hcolumn hne
      show (cursor.column : Int) < indent
      omega
  refine Leads.of_arrive ?_ (by rfl)
  rw [arrive_inBlock [] h hnil hrest (by simp), closeBlocks_of_lt hlt,
    arrive_inBlock [] h hnil hrest (by simp)]

/-! ### Marks -/

/-- A mark before an item, a key or a value, the token of the collection that it stands in, and its
own. -/
inductive BlockMark : Char → Token → Token → Prop
  | item : BlockMark '-' .blockSequenceStart .blockEntry
  | key : BlockMark '?' .blockMappingStart .key
  | value : BlockMark ':' .blockMappingStart .value

theorem openBlock_of_lt {column : Nat} (h : indent < column) (token : Token) :
    (inBlock cursor tokens indent outer candidate allowed).openBlock column none token =
      inBlock cursor (token :: tokens) column (indent :: outer) candidate allowed := by
  have hopens : (!(inBlock cursor tokens indent outer candidate allowed).inFlow &&
      decide (indent < column)) = true := decide_eq_true h
  exact if_pos hopens

theorem openBlock_of_not_lt {column : Nat} (h : ¬ indent < column) (number : Option Nat)
    (token : Token) :
    (inBlock cursor tokens indent outer candidate allowed).openBlock column number token =
      inBlock cursor tokens indent outer candidate allowed := by
  have hstays : ¬ (!(inBlock cursor tokens indent outer candidate allowed).inFlow &&
      decide (indent < column)) = true := by
    simpa [inFlow, inBlock] using h
  exact if_neg hstays

variable {c : Char} {start token : Token}

theorem token_mark (hmark : BlockMark c start token) (h : cursor.rest = c :: ' ' :: rest) :
    (inBlock cursor tokens indent outer none true).token c =
      .ok (((inBlock cursor tokens indent outer none true).openBlock cursor.column none start).take
        1 token) := by
  have hgap : atGap (inBlock cursor tokens indent outer none true).cursor.rest.tail = true := by
    show atGap cursor.rest.tail = true
    rw [h]
    rfl
  have hdocument :
      isDocumentMark (inBlock cursor tokens indent outer none true).cursor.rest = false := by
    show isDocumentMark cursor.rest = false
    rw [h]
    cases hmark <;> rfl
  have hflow : (inBlock cursor tokens indent outer none true).inFlow = false := rfl
  have hopen : ∃ tokens' indent' outer', (inBlock cursor tokens indent outer none true).openBlock
      cursor.column none start = inBlock cursor tokens' indent' outer' none true := by
    unfold openBlock
    split
    · exact ⟨_, _, _, rfl⟩
    · exact ⟨_, _, _, rfl⟩
  obtain ⟨tokens', indent', outer', hopen⟩ := hopen
  have hcursor : (inBlock cursor tokens indent outer none true).cursor.column = cursor.column := rfl
  have hcandidate : (inBlock cursor tokens indent outer none true).candidate = none := rfl
  have hallowed : (inBlock cursor tokens indent outer none true).keyAllowed = true := rfl
  cases hmark with
  | item =>
    have hitem : (inBlock cursor tokens indent outer none true).token '-' =
        (inBlock cursor tokens indent outer none true).blockEntry := by
      simp [Lexer.token, hgap, hdocument]
    rw [hitem, blockEntry, hflow, hallowed, hcursor, hopen]
    rfl
  | key =>
    have hkey : (inBlock cursor tokens indent outer none true).token '?' =
        (inBlock cursor tokens indent outer none true).keyMark := by
      simp [Lexer.token, hgap, hdocument]
    rw [hkey, keyMark, hflow, hallowed, hcursor, hopen]
    rfl
  | value =>
    have hvalue : (inBlock cursor tokens indent outer none true).token ':' =
        (inBlock cursor tokens indent outer none true).valueMark := by
      simp [Lexer.token, hgap, hdocument]
    rw [hvalue, valueMark, hcandidate]
    dsimp only
    rw [hflow, hallowed, hcursor, hopen]
    rfl

theorem solid_of_mark (hmark : BlockMark c start token) (rest : List Char) : Solid (c :: rest) := by
  intro d hd
  obtain rfl := Option.some.inj hd
  cases hmark <;> decide

/-- The lexer stands at a token, with a candidate that is not too far back. -/
structure Stands (cursor : Cursor) (indent : Int) (candidate : Option KeyCandidate) (c : Char)
    (rest : List Char) : Prop where
  rest_eq : cursor.rest = c :: rest
  solid : Solid (c :: rest)
  indent_le : indent ≤ cursor.column
  steady : ∀ k ∈ candidate, isStale cursor k = false

theorem Stands.arrive (h : Stands cursor indent candidate c rest) :
    (inBlock cursor tokens indent outer candidate allowed).arrive =
      .ok (inBlock cursor tokens indent outer candidate allowed) := by
  have hgap : IsGap [] := by
    intro c hc
    cases hc
  have hpast : cursor.past [] (c :: rest) = cursor := Cursor.past_nil h.rest_eq
  have hfresh : fresh cursor candidate = candidate := by
    cases hcandidate : candidate with
    | none => rfl
    | some k => simp [fresh, h.steady k hcandidate]
  rw [arrive_of_le [] h.rest_eq hgap h.solid (by simp) h.indent_le
    (fun k hk _ => by rw [hpast]; exact h.steady k hk), hpast, hfresh]
  simp

/-- A token is taken, with the text up to the next place. -/
theorem Stands.leads (h : Stands cursor indent candidate c rest) {next : Except Fault Lexer}
    (htoken : (inBlock cursor tokens indent outer candidate allowed).token c = next)
    (hleft : left next < cursor.rest.length) :
    (inBlock cursor tokens indent outer candidate allowed).Leads next :=
  Leads.token h.arrive h.rest_eq htoken hleft

/-- A mark stands in the collection that goes on at its column. -/
theorem leads_mark (hmark : BlockMark c start token) (h : cursor.rest = c :: ' ' :: rest)
    (hindent : indent = cursor.column) :
    (inBlock cursor tokens indent outer none true).Leads
      (.ok (inBlock (cursor.past [c] (' ' :: rest)) (token :: tokens) indent outer none true)) := by
  have htoken : (inBlock cursor tokens indent outer none true).token c = _ := token_mark hmark h
  rw [openBlock_of_not_lt (by omega)] at htoken
  have hstands : Stands cursor indent none c (' ' :: rest) :=
    ⟨h, solid_of_mark hmark _, by omega, by simp⟩
  refine hstands.leads (htoken.trans (congrArg _ (take_inBlock [c] h))) ?_
  show (' ' :: rest).length < cursor.rest.length
  rw [h]
  simp

/-- A mark opens a collection at its column. -/
theorem leads_open (hmark : BlockMark c start token) (h : cursor.rest = c :: ' ' :: rest)
    (hindent : indent < cursor.column) :
    (inBlock cursor tokens indent outer none true).Leads
      (.ok (inBlock cursor (start :: tokens) cursor.column (indent :: outer) none true)) := by
  have hsolid := solid_of_mark hmark (' ' :: rest)
  have hstands : Stands cursor indent none c (' ' :: rest) := ⟨h, hsolid, by omega, by simp⟩
  have hopened : Stands cursor cursor.column none c (' ' :: rest) := ⟨h, hsolid, le_rfl, by simp⟩
  refine Leads.of_token hstands.arrive hopened.arrive h h ?_ le_rfl
  rw [token_mark hmark h, token_mark hmark h, openBlock_of_lt hindent,
    openBlock_of_not_lt (lt_irrefl _)]

end InBlock

end Lexer

end OperatorBundle.Yaml
