import OperatorBundle.Proofs.Yaml.ShortKeys
import OperatorBundle.Proofs.Yaml.WordTokens

/-!
The tokens of tags and of keys before their colon. A key is known only once its colon has come, and
what is written of a short key keeps it near enough for that.
-/

namespace OperatorBundle.Yaml

open OperatorBundle.Text OperatorBundle.Layout

/-- The token of a tag, if there is one. -/
def tagTokens (tag : Option String) : Except Fault (List Token) :=
  tag.elim (.ok []) fun tag => (tagToken false (writtenTag tag)).map fun result => [.tag result.1]

/-- The token of a scalar. -/
def wordToken (slot : Slot) (cs : List Char) (asked : Style) : Token :=
  .scalar cs (asked.fit cs (slot = .shortKey) = .plain)

/-- Whether the items of a sequence stand at the indentation of its key: not behind a mark on the
same line. -/
def indentless (slot : Slot) (fresh : Bool) (tag : Option String) : Bool :=
  slot.inMapping && !(fresh && tag.isNone)

mutual
/-- The tokens of a tree where it stands: whether on a fresh line, and behind which tag. -/
def nodeTokens (slot : Slot) (fresh : Bool) (tag : Option String) :
    Tree → Except Fault (List Token)
  | .tagged inner content => nodeTokens slot fresh (some inner) content
  | .sequence items =>
    if items.isEmpty then
      (tagTokens tag).map (· ++ [.flowSequenceStart, .flowSequenceEnd])
    else
      tagTokens tag >>= fun before => (itemsTokens items).map fun inner =>
        before ++ if indentless slot fresh tag then inner
          else .blockSequenceStart :: (inner ++ [.blockEnd])
  | .mapping entries =>
    if entries.isEmpty then
      (tagTokens tag).map (· ++ [.flowMappingStart, .flowMappingEnd])
    else
      tagTokens tag >>= fun before => (entriesTokens entries).map fun inner =>
        before ++ .blockMappingStart :: (inner ++ [.blockEnd])
  | tree =>
    match scalarForm? tree with
    | some (cs, asked) => (tagTokens tag).map (· ++ [wordToken slot cs asked])
    | none => .ok []

/-- The tokens of items. -/
def itemsTokens : List Tree → Except Fault (List Token)
  | [] => .ok []
  | item :: more =>
    nodeTokens .item true none item >>= fun first =>
      (itemsTokens more).map fun rest => .blockEntry :: (first ++ rest)

/-- The tokens of entries. -/
def entriesTokens : List (Tree × Tree) → Except Fault (List Token)
  | [] => .ok []
  | (key, value) :: more =>
    let short := isShortKey none key
    nodeTokens (if short then .shortKey else .longKey) true none key >>= fun first =>
      nodeTokens .value (!short) none value >>= fun second =>
        (entriesTokens more).map fun rest => .key :: (first ++ .value :: (second ++ rest))
end

theorem exists_writtenTag (tag : String) :
    ∃ rest, writtenTag tag = '!' :: rest ∧ ∀ c ∈ rest, isGraphic c := by
  have hgraphic : ∀ c ∈ writtenTag tag, isGraphic c := fun c hc => isGraphic_of_mem_writtenTag hc
  obtain ⟨rest, hrest⟩ : ∃ rest, writtenTag tag = '!' :: rest := by
    unfold writtenTag
    split
    · exact ⟨_, rfl⟩
    · exact ⟨_, rfl⟩
  rw [hrest] at hgraphic
  exact ⟨rest, hrest, (List.forall_mem_cons.1 hgraphic).2⟩

namespace Lexer

theorem Leads.refl (lx : Lexer) : lx.Leads (.ok lx) := Leads.of_arrive rfl le_rfl

/-- A run goes on behind what may fail. -/
theorem Leads.bind {α : Type} {lx : Lexer} {x : Except Fault α} {f : α → Lexer}
    {g : α → Except Fault Lexer} (h : lx.Leads (x.map f)) (h' : ∀ a, (f a).Leads (g a)) :
    lx.Leads (x >>= g) := by
  cases x with
  | error e => exact h
  | ok a => exact Leads.trans h (h' a)

theorem map_map {α β γ : Type} (f : β → γ) (g : α → β) (x : Except Fault α) :
    (x.map g).map f = x.map fun a => f (g a) := by
  cases x <;> rfl

theorem Leads.map {α : Type} {lx : Lexer} {x : Except Fault α} {f g : α → Lexer}
    (h : lx.Leads (x.map f)) (h' : ∀ a, (f a).Leads (.ok (g a))) : lx.Leads (x.map g) := by
  cases x with
  | error e => exact h
  | ok a => exact Leads.trans h (h' a)

section Tags

variable {cursor : Cursor} {tokens : List Token} {indent : Int} {outer : List Int}
  {candidate : Option KeyCandidate} {allowed : Bool} {rest : List Char} {c : Char}

theorem isGap_gapText (gap : Bool) : IsGap (gapText gap) := by
  cases gap with
  | true => exact isGap_nil
  | false =>
    intro c hc
    exact .inl (List.mem_singleton.1 hc)

theorem any_gapText (gap : Bool) : (gapText gap).any isBreak = false := by
  cases gap <;> decide

theorem columnPast_gapText (column : Nat) (gap : Bool) :
    columnPast column (gapText gap) = column + (gapText gap).length := by
  cases gap <;> rfl

theorem fresh_none : fresh cursor none = none := rfl

/-- The lexer comes to a word. -/
theorem leads_gap {gap : Bool} (h : cursor.rest = gapText gap ++ c :: rest)
    (hsolid : Solid (c :: rest)) (hindent : indent ≤ cursor.column + (gapText gap).length)
    (hcandidate : ∀ k ∈ candidate, k.required →
      isStale (cursor.past (gapText gap) (c :: rest)) k = false) :
    (inBlock cursor tokens indent outer candidate allowed).Leads
      (.ok (inBlock (cursor.past (gapText gap) (c :: rest)) tokens indent outer
        (fresh (cursor.past (gapText gap) (c :: rest)) candidate) allowed)) := by
  have hcolumn : indent ≤ columnPast cursor.column (gapText gap) := by
    rw [columnPast_gapText]
    exact_mod_cast hindent
  have harrive : (inBlock cursor tokens indent outer candidate allowed).arrive = _ :=
    arrive_of_le _ h (isGap_gapText gap) hsolid (by simp) hcolumn hcandidate
  rw [any_gapText, Bool.or_false] at harrive
  have hstands : Stands (cursor.past (gapText gap) (c :: rest)) indent
      (fresh (cursor.past (gapText gap) (c :: rest)) candidate) c rest :=
    ⟨rfl, hsolid, hcolumn, fun k hk => by simpa using (Option.filter_eq_some_iff.1 hk).2⟩
  refine Leads.of_arrive (harrive.trans hstands.arrive.symm) ?_
  show (c :: rest).length ≤ cursor.rest.length
  rw [h, List.length_append]
  omega

/-- A tag and the candidate it leaves. -/
theorem leads_writtenTag (gap : Bool) (tag : String)
    (h : cursor.rest = gapText gap ++ (writtenTag tag ++ rest)) (hrest : atGap rest)
    (hindent : indent ≤ cursor.column + (gapText gap).length) :
    (inBlock cursor tokens indent outer none allowed).Leads ((tagTokens (some tag)).map fun before =>
      inBlock (cursor.past (gapText gap ++ writtenTag tag) rest) (before.reverse ++ tokens) indent
        outer
        (saved (cursor.past (gapText gap) (writtenTag tag ++ rest)) tokens indent none allowed)
        false) := by
  obtain ⟨marked, hmarked, hgraphic⟩ := exists_writtenTag tag
  have hsolid : Solid ('!' :: (marked ++ rest)) := by
    intro d hd
    obtain rfl := Option.some.inj hd
    decide
  rw [hmarked] at h
  have hstands : Stands (cursor.past (gapText gap) ('!' :: (marked ++ rest))) indent none '!'
      (marked ++ rest) := by
    refine ⟨rfl, hsolid, ?_, by simp⟩
    rw [Cursor.past_column, columnPast_gapText]
    exact_mod_cast hindent
  refine (leads_gap h hsolid hindent (by simp)).trans ?_
  rw [fresh_none]
  have htag : (inBlock (cursor.past (gapText gap) ('!' :: (marked ++ rest))) tokens indent outer none
      allowed).Leads _ := leads_tag hstands hgraphic hrest (fun _ => rfl)
  have htokens : tagTokens (some tag) =
      (tagToken false ('!' :: marked)).map fun result => [.tag result.1] := by
    rw [tagTokens, Option.elim_some, hmarked]
  rw [htokens, hmarked]
  cases hresult : tagToken false ('!' :: marked) with
  | error e => rw [hresult] at htag; exact htag
  | ok result =>
    rw [hresult] at htag
    simpa [Except.map] using htag

/-! ### Keys -/

/-- A candidate that stays one for some more bytes of its line. -/
def Near (cursor : Cursor) (candidate : Option KeyCandidate) (size : Nat) : Prop :=
  ∀ k ∈ candidate, ∀ text rest, (∀ c ∈ text, isBreak c = false) → byteCount text ≤ size →
    isStale (cursor.past text rest) k = false

theorem near_none (size : Nat) : Near cursor none size := by
  intro k hk
  cases hk

theorem near_candidateAt {size : Nat} (hsize : size ≤ keyLimit) :
    Near cursor (some (candidateAt cursor tokens indent)) size := by
  intro k hk text rest hline htext
  obtain rfl := Option.some.inj hk
  exact isStale_candidateAt hline (htext.trans hsize)

theorem Near.past {size size' : Nat} (h : Near cursor candidate size) {text : List Char}
    (hline : ∀ c ∈ text, isBreak c = false) (hsize : byteCount text + size' ≤ size)
    (rest : List Char) : Near (cursor.past text rest) candidate size' := by
  intro k hk more rest' hmore hbytes
  rw [Cursor.past_past]
  refine h k hk (text ++ more) rest' ?_ ?_
  · intro c hc
    rcases List.mem_append.1 hc with hc | hc
    · exact hline c hc
    · exact hmore c hc
  · rw [byteCount_append]
    omega

theorem Near.steady {size : Nat} (h : Near cursor candidate size) :
    ∀ k ∈ candidate, isStale cursor k = false := by
  intro k hk
  have := h k hk [] cursor.rest (by simp) (Nat.zero_le _)
  rwa [Cursor.past_nil rfl] at this

theorem Near.fresh_eq {size : Nat} (h : Near cursor candidate size) :
    fresh cursor candidate = candidate := by
  cases hcandidate : candidate with
  | none => rfl
  | some k => simp [fresh, h.steady k hcandidate]

variable (tokens indent allowed) in
theorem Near.saved {size : Nat} (h : Near cursor candidate size) (hsize : size ≤ keyLimit) :
    Near cursor (saved cursor tokens indent candidate allowed) size := by
  cases allowed with
  | false => exact h
  | true => exact near_candidateAt hsize

/-- The text of a key behind its tag, with the tokens that it stands for. -/
structure KeyBody (body : List Char) (core : List Token) (after : List Char) : Prop where
  solid : Solid (body ++ ':' :: after)
  leads : ∀ {place : Cursor} {tokens : List Token} {indent : Int} {outer : List Int}
    {candidate : Option KeyCandidate} {allowed : Bool}, place.rest = body ++ ':' :: after →
    indent ≤ place.column → Near place candidate (byteCount body) →
    (allowed = true → candidate = none) →
    (inBlock place tokens indent outer candidate allowed).Leads
      (.ok (inBlock (place.past body (':' :: after)) (core.reverse ++ tokens) indent outer
        (saved place tokens indent candidate allowed) false))

/-- The text of a key behind a tag and a space. The candidate is the one from the start of the tag. -/
theorem leads_keyBehindTag {body after : List Char} {core : List Token}
    (hbody : KeyBody body core after) (tokens : List Token) (outer : List Int)
    {place : Cursor} (hplace : place.rest = gapText false ++ (body ++ ':' :: after))
    (hindent : indent ≤ place.column) (hnear : Near place candidate (1 + byteCount body)) :
    (inBlock place tokens indent outer candidate false).Leads
      (.ok (inBlock (place.past (gapText false ++ body) (':' :: after)) (core.reverse ++ tokens) indent
        outer candidate false)) := by
  obtain ⟨c, rest, hcons⟩ : ∃ c rest, body ++ ':' :: after = c :: rest :=
    List.exists_cons_of_ne_nil (by simp)
  have hsolid := hbody.solid
  have hbytes : byteCount (gapText false) = 1 := rfl
  have hnear' : Near (place.past (gapText false) (body ++ ':' :: after)) candidate
      (byteCount body) :=
    hnear.past (List.all_iff_forall_prop.1 (by decide)) (by rw [hbytes]) _
  have hgap : (inBlock place tokens indent outer candidate false).Leads _ :=
    leads_gap (hplace.trans (congrArg _ hcons)) (hcons ▸ hsolid) (by omega)
      (fun k hk _ => by rw [← hcons]; exact hnear'.steady k hk)
  rw [← hcons, hnear'.fresh_eq] at hgap
  have hcolumn : indent ≤ (place.past (gapText false) (body ++ ':' :: after)).column := by
    rw [Cursor.past_column, columnPast_gapText]
    push_cast
    omega
  have hcore : (inBlock (place.past (gapText false) (body ++ ':' :: after)) tokens indent outer
      candidate false).Leads _ := hbody.leads rfl hcolumn hnear' (by simp)
  rw [Cursor.past_past] at hcore
  exact hgap.trans hcore

/-- A key behind its tag is a candidate from the start of the tag. -/
theorem leads_taggedKey {tag : Option String} {body after : List Char} {core : List Token}
    (hbody : KeyBody body core after)
    (hline : ∀ c ∈ (⟨true, true⟩ : Pen).tagText tag ++
      gapText ((⟨true, true⟩ : Pen).behind tag).gap ++ body, isBreak c = false)
    (hsize : byteCount ((⟨true, true⟩ : Pen).tagText tag ++
      gapText ((⟨true, true⟩ : Pen).behind tag).gap ++ body) ≤ keyLimit)
    (h : cursor.rest = (⟨true, true⟩ : Pen).tagText tag ++
      gapText ((⟨true, true⟩ : Pen).behind tag).gap ++ body ++ ':' :: after)
    (hindent : indent ≤ cursor.column) :
    (inBlock cursor tokens indent outer none true).Leads ((tagTokens tag).map fun before =>
      inBlock (cursor.past ((⟨true, true⟩ : Pen).tagText tag ++
        gapText ((⟨true, true⟩ : Pen).behind tag).gap ++ body) (':' :: after))
        ((before ++ core).reverse ++ tokens) indent outer
        (some (candidateAt cursor tokens indent)) false) := by
  cases tag with
  | none => exact hbody.leads h hindent (near_none _) (fun _ => rfl)
  | some tag =>
    have htext : (⟨true, true⟩ : Pen).tagText (some tag) ++
        gapText ((⟨true, true⟩ : Pen).behind (some tag)).gap ++ body =
          writtenTag tag ++ (gapText false ++ body) := by
      simp [Pen.tagText, Pen.behind, gapText]
    rw [htext] at hline hsize ⊢
    rw [htext] at h
    have hwritten : cursor.rest =
        gapText true ++ (writtenTag tag ++ (gapText false ++ (body ++ ':' :: after))) := by
      simpa [gapText] using h
    have htag : (inBlock cursor tokens indent outer none true).Leads _ :=
      leads_writtenTag true tag hwritten rfl (by simpa [gapText] using hindent)
    refine htag.map fun before => ?_
    show (inBlock (cursor.past (writtenTag tag) (gapText false ++ (body ++ ':' :: after)))
      (before.reverse ++ tokens) indent outer (some (candidateAt cursor tokens indent)) false).Leads _
    have htagLine : ∀ c ∈ writtenTag tag, isBreak c = false :=
      fun c hc => hline c (List.mem_append_left _ hc)
    have hbytes : byteCount (gapText false) = 1 := rfl
    rw [byteCount_append, byteCount_append, hbytes] at hsize
    have hnear : Near (cursor.past (writtenTag tag) (gapText false ++ (body ++ ':' :: after)))
        (some (candidateAt cursor tokens indent)) (1 + byteCount body) :=
      (near_candidateAt le_rfl).past htagLine (by omega) _
    have hcolumn : indent ≤ (cursor.past (writtenTag tag)
        (gapText false ++ (body ++ ':' :: after))).column := by
      rw [Cursor.past_column, columnPast_of_line htagLine]
      push_cast
      omega
    simpa using leads_keyBehindTag hbody (before.reverse ++ tokens) outer rfl hcolumn hnear

/-- A scalar before its colon. -/
theorem keyBody_word {right column : Nat} {cs after : List Char} {asked : Style}
    (hne : asked.fit cs true = .plain → cs ≠ []) (hcolumn : 0 < column) (hafter : atGap after) :
    KeyBody (wordText right (asked.fit cs true) column cs) [wordToken .shortKey cs asked] after := by
  refine ⟨?_, fun hplace hindent hnear hcandidate =>
    leads_keyWord hne hcolumn hafter hplace hindent hnear.steady hcandidate⟩
  cases hstyle : asked.fit cs true with
  | plain => exact solid_plain (Style.of_fit_eq_plain hstyle).2.1 (hne hstyle) _
  | single | double =>
    intro d hd
    obtain rfl := Option.some.inj hd
    decide
  | literal => exact absurd (Style.of_fit_eq_literal hstyle).2.2 (by simp)

/-- An empty collection before its colon. -/
theorem keyBody_brackets {c c' : Char} {start stop : Token}
    (hbrackets : Brackets c c' start stop) (after : List Char) :
    KeyBody [c, c'] [start, stop] after := by
  have hline : ∀ d ∈ [c], isBreak d = false := by
    cases hbrackets <;> exact List.all_iff_forall_prop.1 (by decide)
  have hbytes : byteCount [c, c'] ≤ keyLimit ∧ byteCount [c] ≤ byteCount [c, c'] := by
    cases hbrackets <;> decide
  have hsolid : Solid (c :: c' :: ':' :: after) := by
    intro d hd
    obtain rfl := Option.some.inj hd
    cases hbrackets <;> decide
  refine ⟨hsolid, fun {place tokens indent outer candidate allowed} hplace hindent hnear hcandidate
    => ?_⟩
  have hrest : place.rest = c :: c' :: ':' :: after := hplace
  have hempty : (inBlock place tokens indent outer candidate allowed).Leads _ :=
    leads_brackets hbrackets ⟨hrest, hsolid, hindent, hnear.steady⟩
      (fun k hk _ => hnear k hk [c] (c' :: ':' :: after) hline hbytes.2) hcandidate
  have hsaved : Near (place.past [c] (c' :: ':' :: after))
      (saved place tokens indent candidate allowed) 0 :=
    (hnear.saved tokens indent allowed hbytes.1).past hline hbytes.2 _
  rw [hsaved.fresh_eq] at hempty
  exact hempty

/-- A short key is a tag, perhaps, and a body behind it. -/
theorem exists_keyBody (right : Nat) (indent : Int) (tag : Option String) (key : Tree)
    (hkey : isShortKey tag key) {after : List Char} (hafter : atGap after) :
    ∃ tag' body core, nodeText right indent .shortKey ⟨true, true⟩ tag key =
        (⟨true, true⟩ : Pen).tagText tag' ++ gapText ((⟨true, true⟩ : Pen).behind tag').gap ++ body ∧
      nodeTokens .shortKey true tag key = (tagTokens tag').map (· ++ core) ∧
        KeyBody body core after := by
  have hscalar (tree : Tree) {cs : List Char} {asked : Style}
      (hform : scalarForm? tree = some (cs, asked)) :
      KeyBody (wordText right (asked.fit cs true) (scalarIndent indent).toNat cs)
        [wordToken .shortKey cs asked] after := by
    have hcolumn : 0 < (scalarIndent indent).toNat := by
      unfold scalarIndent
      split <;> omega
    exact keyBody_word (fun hplain => ne_nil_of_fit_eq_plain hform hplain) hcolumn hafter
  cases key with
  | tagged inner content =>
    rw [nodeText, nodeTokens]
    exact exists_keyBody right indent (some inner) content (by simpa [isShortKey] using hkey) hafter
  | sequence items =>
    have hempty : items.isEmpty := (Bool.and_eq_true_iff.1 hkey).1
    refine ⟨tag, _, _, ?_, ?_, keyBody_brackets .sequence after⟩
    · rw [nodeText, if_pos hempty]
      simp [lineEnd]
    · rw [nodeTokens, if_pos hempty]
  | mapping entries =>
    have hempty : entries.isEmpty := (Bool.and_eq_true_iff.1 hkey).1
    refine ⟨tag, _, _, ?_, ?_, keyBody_brackets .mapping after⟩
    · rw [nodeText, if_pos hempty]
      simp [lineEnd]
    · rw [nodeTokens, if_pos hempty]
  | null =>
    exact ⟨tag, _, _, by simp [nodeText, scalarForm?, wordEnd, lineEnd], rfl, hscalar .null rfl⟩
  | bool b =>
    exact ⟨tag, _, _, by simp [nodeText, scalarForm?, wordEnd, lineEnd], rfl, hscalar (.bool b) rfl⟩
  | int n =>
    exact ⟨tag, _, _, by simp [nodeText, scalarForm?, wordEnd, lineEnd], rfl, hscalar (.int n) rfl⟩
  | float x =>
    exact ⟨tag, _, _, by simp [nodeText, scalarForm?, wordEnd, lineEnd], rfl, hscalar (.float x) rfl⟩
  | text s =>
    exact ⟨tag, _, _, by simp [nodeText, scalarForm?, wordEnd, lineEnd], rfl, hscalar (.text s) rfl⟩

/-- **A key before its colon** leads to its tokens, and stays a candidate from its start. -/
theorem leads_key (right : Nat) (indent' : Int) (tag : Option String) (key : Tree)
    (hkey : isShortKey tag key) {after : List Char} (hafter : atGap after)
    (h : cursor.rest = nodeText right indent' .shortKey ⟨true, true⟩ tag key ++ ':' :: after)
    (hindent : indent ≤ cursor.column) :
    (inBlock cursor tokens indent outer none true).Leads ((nodeTokens .shortKey true tag key).map
      fun inner => inBlock (cursor.past (nodeText right indent' .shortKey ⟨true, true⟩ tag key)
        (':' :: after)) (inner.reverse ++ tokens) indent outer
        (some (candidateAt cursor tokens indent)) false) := by
  have hline : ∀ c ∈ nodeText right indent' .shortKey ⟨true, true⟩ tag key, isBreak c = false := by
    obtain ⟨hsame, hline⟩ := shortKey_text right indent' ⟨true, true⟩ tag key hkey
    rw [hsame]
    exact fun c hc => isBreak_eq_false (hline c hc)
  have hsize : byteCount (nodeText right indent' .shortKey ⟨true, true⟩ tag key) ≤ keyLimit :=
    (byteCount_shortKey_le right indent' ⟨true, true⟩ tag key hkey).trans (by decide)
  obtain ⟨tag', body, core, htext, htokens, hbody⟩ :=
    exists_keyBody right indent' tag key hkey hafter
  rw [htext] at hline hsize h ⊢
  rw [htokens, map_map]
  exact leads_taggedKey hbody hline hsize h hindent

theorem solid_shortKey (right : Nat) (indent : Int) (key : Tree) (hkey : isShortKey none key)
    {after : List Char} (hafter : atGap after) :
    Solid (nodeText right indent .shortKey ⟨true, true⟩ none key ++ ':' :: after) := by
  obtain ⟨tag, body, core, htext, -, hbody⟩ := exists_keyBody right indent none key hkey hafter
  rw [htext]
  cases tag with
  | none => exact hbody.solid
  | some tag =>
    obtain ⟨rest, hrest, -⟩ := exists_writtenTag tag
    intro d hd
    simp only [Pen.tagText, Option.elim_some, gapText, if_true, List.nil_append, hrest] at hd
    obtain rfl := Option.some.inj hd
    decide

end Tags

end Lexer

end OperatorBundle.Yaml
