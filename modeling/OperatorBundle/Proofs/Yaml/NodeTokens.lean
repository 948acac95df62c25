import OperatorBundle.Proofs.Yaml.KeyTokens

/-!
The tokens of what is written of a tree. They depend on the tree and on where it stands, but not on
how far right its lines are: a run of the lexer over the text leads to the same tokens at every
margin.

* `leads_node`: what is written of a node leads to its tokens.
* `tokens_nodeText`: the tokens of a text that holds nothing else.
-/

namespace OperatorBundle.Tree

open OperatorBundle.Yaml

/-- Whether a tree is, under its tags, a literal that needs its indentation in the header. -/
def hintsIndent : Tree → Bool
  | .tagged _ content => hintsIndent content
  | .text s =>
    (Style.ofText s.toList).fit s.toList false = .literal && Yaml.hintsIndent s.toList
  | _ => false

end OperatorBundle.Tree

namespace OperatorBundle.Yaml

open OperatorBundle.Text OperatorBundle.Layout

namespace Lexer

/-- The columns of a node: the collection around it stands where it was written, with the margin, or
left of all that is written. -/
structure Placed (right : Nat) (written indent : Int) : Prop where
  inner : 0 ≤ written → indent = right + written
  outer : written < 0 → -1 ≤ indent ∧ indent < right

section Nodes

variable {cursor : Cursor} {tokens : List Token} {indent : Int} {outer : List Int}
  {candidate : Option KeyCandidate} {allowed : Bool} {rest : List Char} {c : Char}
  {right next : Nat} {written : Int} {pen : Pen} {tag : Option String}

/-! ### Behind a tag -/

/-- The text of a scalar or of an empty collection behind its tag, with the tokens that it stands
for. -/
structure NodeBody (indent : Int) (next : Nat) (body : List Char) (core : List Token)
    (rest : List Char) : Prop where
  solid : Solid (body ++ (spaces next ++ rest))
  ne_nil : body ≠ []
  leads : ∀ (tokens : List Token) (outer : List Int) (allowed : Bool) ⦃place : Cursor⦄
    ⦃candidate : Option KeyCandidate⦄, place.rest = body ++ (spaces next ++ rest) →
    indent < place.column →
    (∀ k ∈ candidate, isStale place k = false) → (allowed = true → candidate = none) →
    Loose place candidate →
    (inBlock place tokens indent outer candidate allowed).Leads
      (.ok (inBlock (place.past (body ++ spaces next) rest) (core.reverse ++ tokens) indent outer
        none true))

variable (tokens outer allowed) in
/-- The lexer behind a tag, if there is one. -/
theorem leads_tagText (h : cursor.rest = pen.tagText tag ++ rest)
    (hrest : tag.isSome → atGap rest)
    (hindent : indent < cursor.column + (gapText pen.gap).length) :
    ∃ candidate, Loose (cursor.past (pen.tagText tag) rest) candidate ∧
      ((allowed && tag.isNone) = true → candidate = none) ∧
      (inBlock cursor tokens indent outer none allowed).Leads ((tagTokens tag).map fun before =>
        inBlock (cursor.past (pen.tagText tag) rest) (before.reverse ++ tokens) indent outer
          candidate (allowed && tag.isNone)) := by
  cases tag with
  | none =>
    refine ⟨none, loose_none, fun _ => rfl, ?_⟩
    have hpast : cursor.past (pen.tagText none) rest = cursor := Cursor.past_nil h
    rw [hpast]
    simpa [tagTokens, Except.map] using Leads.refl _
  | some tag =>
    have htext : cursor.rest = gapText pen.gap ++ (writtenTag tag ++ rest) := by
      simpa [Pen.tagText] using h
    set place := cursor.past (gapText pen.gap) (writtenTag tag ++ rest) with hplace
    have hcolumn : indent < place.column := by
      rw [hplace, Cursor.past_column, columnPast_gapText]
      exact_mod_cast hindent
    refine ⟨saved place tokens indent none allowed, ?_, by simp, ?_⟩
    · have hloose := (loose_none.saved tokens allowed hcolumn).past
        (writtenTag tag) rest
      rwa [hplace, Cursor.past_past] at hloose
    · simpa [Pen.tagText] using leads_writtenTag pen.gap tag htext (hrest rfl) hindent.le

/-- A tag moves a node to the right only. -/
theorem lt_behindTag {column : Nat} (h : indent < column + (gapText pen.gap).length) :
    indent < columnPast column (pen.tagText tag) + (gapText (pen.behind tag).gap).length := by
  have hline : ∀ c ∈ pen.tagText tag, isBreak c = false :=
    fun c hc => isBreak_eq_false (line_tagText pen tag c (List.mem_append_left _ hc))
  rw [columnPast_of_line hline]
  cases tag with
  | none => simpa [Pen.tagText, Pen.behind] using h
  | some tag =>
    have hlength : (pen.tagText (some tag)).length =
        (gapText pen.gap).length + (writtenTag tag).length := by
      simp [Pen.tagText]
    rw [hlength]
    push_cast at h ⊢
    omega

/-- A scalar or an empty collection behind its tag. -/
theorem leads_taggedBody {body : List Char} {core : List Token}
    (hbody : NodeBody indent next body core rest)
    (h : cursor.rest = pen.tagText tag ++ (gapText (pen.behind tag).gap ++ (body ++
      (spaces next ++ rest))))
    (hindent : indent < cursor.column + (gapText pen.gap).length) :
    (inBlock cursor tokens indent outer none allowed).Leads ((tagTokens tag).map fun before =>
      inBlock (cursor.past (pen.tagText tag ++ (gapText (pen.behind tag).gap ++ (body ++
        spaces next))) rest) ((before ++ core).reverse ++ tokens) indent outer none true) := by
  have hgap : tag.isSome →
      atGap (gapText (pen.behind tag).gap ++ (body ++ (spaces next ++ rest))) := by
    intro hsome
    rw [Pen.behind, if_pos hsome]
    rfl
  obtain ⟨candidate, hloose, hcandidate, htag⟩ := leads_tagText tokens outer allowed h hgap hindent
  refine htag.map fun before => ?_
  set place := cursor.past (pen.tagText tag)
    (gapText (pen.behind tag).gap ++ (body ++ (spaces next ++ rest))) with hplace
  have hcolumn : indent < place.column + (gapText (pen.behind tag).gap).length := lt_behindTag hindent
  have hsolid := hbody.solid
  obtain ⟨c, more, hcons⟩ : ∃ c more, body ++ (spaces next ++ rest) = c :: more :=
    List.exists_cons_of_ne_nil (by simp [hbody.ne_nil])
  have hplaceRest : place.rest = gapText (pen.behind tag).gap ++ c :: more := by
    rw [← hcons]
    rfl
  have hword : (inBlock place (before.reverse ++ tokens) indent outer candidate
      (allowed && tag.isNone)).Leads _ :=
    leads_gap hplaceRest (hcons ▸ hsolid) hcolumn.le
      (fun k hk hrequired => absurd hrequired (by simp [(hloose k hk).1]))
  rw [← hcons] at hword
  refine hword.trans ?_
  have hcore := hbody.leads (before.reverse ++ tokens) outer (allowed && tag.isNone)
    (rfl : (place.past (gapText (pen.behind tag).gap) (body ++ (spaces next ++ rest))).rest = _) (by
      rw [Cursor.past_column, columnPast_gapText]
      exact_mod_cast hcolumn)
    (fun k hk => by simpa using (Option.filter_eq_some_iff.1 hk).2)
    (fun hallowed => by rw [hcandidate hallowed, fresh_none])
    ((hloose.past _ _).fresh _)
  simpa [hplace] using hcore

/-- A scalar and its line. -/
theorem nodeBody_word {slot : Slot} {cs : List Char} {asked : Style} {column : Nat}
    (hslot : slot ≠ .shortKey) (hne : asked.fit cs false = .plain → cs ≠ [])
    (hliteral : asked.fit cs false = .literal → breaksAtFeeds cs ∧ Holds indent right column cs)
    (hcolumn : asked.fit cs false = .single → 0 < column) (hahead : Ahead indent next rest) :
    NodeBody indent next (wordText right (asked.fit cs false) column cs ++
      wordEnd slot (asked.fit cs false) cs) [wordToken slot cs asked] rest := by
  have htoken : wordToken slot cs asked = .scalar cs (asked.fit cs false = .plain) := by
    simp [wordToken, hslot]
  have hword : Solid (wordText right (asked.fit cs false) column cs ++
      (wordEnd slot (asked.fit cs false) cs ++ (spaces next ++ rest))) ∧
      wordText right (asked.fit cs false) column cs ≠ [] := by
    cases hstyle : asked.fit cs false with
    | plain => exact ⟨solid_plain (Style.of_fit_eq_plain hstyle).2.1 (hne hstyle) _, hne hstyle⟩
    | single | double | literal =>
      refine ⟨?_, by simp [wordText]⟩
      intro d hd
      obtain rfl := Option.some.inj hd
      decide
  refine ⟨by simpa using hword.1, by simp [hword.2], ?_⟩
  intro tokens outer allowed place candidate hplace hindent hsteady hcandidate hloose
  have hline : (inBlock place tokens indent outer candidate allowed).Leads _ :=
    leads_word hslot hne hliteral hcolumn (by simpa using hplace) hahead hindent hsteady hcandidate
      hloose
  rw [htoken]
  simpa using hline

/-- An empty collection and its line. -/
theorem nodeBody_brackets {slot : Slot} (hslot : slot ≠ .shortKey) {c c' : Char}
    {start stop : Token} (hbrackets : Brackets c c' start stop) (hahead : Ahead indent next rest) :
    NodeBody indent next ([c, c'] ++ lineEnd slot) [start, stop] rest := by
  have hend : lineEnd slot = ['\n'] := by simp [lineEnd, hslot]
  rw [hend]
  refine ⟨?_, by simp, ?_⟩
  · intro d hd
    obtain rfl := Option.some.inj hd
    cases hbrackets <;> decide
  · intro tokens outer allowed place candidate hplace hindent hsteady hcandidate hloose
    exact leads_bracketsLine hbrackets hplace hahead hindent hsteady hcandidate hloose

/-! ### Lines -/

/-- The first mark of a collection stands behind its lead. -/
theorem leads_lead {column : Nat} {more : List Char}
    (h : cursor.rest = pen.lead column ++ c :: more) (hsolid : Solid (c :: more))
    (hfresh : pen.fresh = true → allowed = true ∧ candidate = none)
    (hloose : Loose cursor candidate) :
    (inBlock cursor tokens indent outer candidate allowed).Leads
      (.ok (inBlock (cursor.past (pen.lead column) (c :: more)) tokens indent outer none true)) := by
  obtain ⟨gap, fresh⟩ := pen
  cases fresh with
  | true =>
    obtain ⟨rfl, rfl⟩ := hfresh rfl
    exact leads_line (gapText gap) h (isGap_gapText gap) hsolid rfl (by simp)
  | false =>
    exact leads_line ('\n' :: spaces column) h (isGap_line column) hsolid (by simp [isBreak])
      (hloose.behind List.mem_cons_self _)

/-- The column behind a lead. -/
theorem columnPast_lead {column place : Nat} {fresh gap : Bool}
    (hfresh : fresh = true → place + (gapText gap).length = column) :
    columnPast place ((⟨gap, fresh⟩ : Pen).lead column) = column := by
  cases fresh with
  | true => exact (columnPast_gapText place gap).trans (hfresh rfl)
  | false =>
    show columnPast 0 (spaces column) = column
    rw [columnPast_spaces, Nat.zero_add]

/-- Behind a node the next line starts. -/
theorem columnPast_nodeText (right : Nat) (written : Int) (slot : Slot) (pen : Pen)
    (tag : Option String) {tree : Tree} (hslot : slot ≠ .shortKey)
    (htexts : ∀ s ∈ tree.texts, isMovable s) (column : Nat) :
    columnPast column (nodeText right written slot pen tag tree) = 0 :=
  columnPast_of_getLast? (getLast?_nodeText right written slot pen tag hslot htexts) column

theorem itemsText_lead (right column : Nat) (lead : List Char) {items : List Tree}
    (hitems : items ≠ []) :
    itemsText right column lead items = lead ++ itemsText right column [] items := by
  obtain ⟨item, more, rfl⟩ := List.exists_cons_of_ne_nil hitems
  simp [itemsText]

theorem entriesText_lead (right column : Nat) (lead : List Char) {entries : List (Tree × Tree)}
    (hentries : entries ≠ []) :
    entriesText right column lead entries = lead ++ entriesText right column [] entries := by
  obtain ⟨⟨key, value⟩, more, rfl⟩ := List.exists_cons_of_ne_nil hentries
  simp [entriesText]

/-- Behind a mark a node stands behind a blank, or on a new line where the line is not fresh. -/
theorem exists_cons_nodeText (right : Nat) (written : Int) (slot : Slot) (fresh : Bool)
    (tag : Option String) (tree : Tree) :
    ∃ c more, nodeText right written slot ⟨false, fresh⟩ tag tree = c :: more ∧
      (c = ' ' ∨ fresh = false ∧ c = '\n') := by
  have hbody (body : List Char) : ∃ c more, (⟨false, fresh⟩ : Pen).tagText tag ++
      (gapText ((⟨false, fresh⟩ : Pen).behind tag).gap ++ body) = c :: more ∧
        (c = ' ' ∨ fresh = false ∧ c = '\n') := by
    cases tag <;> exact ⟨' ', _, rfl, .inl rfl⟩
  have hlead (column : Nat) (body : List Char) : ∃ c more, (⟨false, fresh⟩ : Pen).tagText tag ++
      (((⟨false, fresh⟩ : Pen).behind tag).lead column ++ body) = c :: more ∧
        (c = ' ' ∨ fresh = false ∧ c = '\n') := by
    cases tag with
    | none =>
      cases fresh with
      | true => exact ⟨' ', _, rfl, .inl rfl⟩
      | false => exact ⟨'\n', _, rfl, .inr ⟨rfl, rfl⟩⟩
    | some tag => exact ⟨' ', _, rfl, .inl rfl⟩
  cases tree with
  | tagged inner content =>
    rw [nodeText]
    exact exists_cons_nodeText right written slot fresh (some inner) content
  | sequence items =>
    rw [nodeText]
    split
    · simpa using hbody (['[', ']'] ++ lineEnd slot)
    · rename_i hitems
      dsimp only
      rw [itemsText_lead right _ _ (by simpa using hitems)]
      exact hlead _ _
  | mapping entries =>
    rw [nodeText]
    split
    · simpa using hbody (['\x7b', '\x7d'] ++ lineEnd slot)
    · rename_i hentries
      dsimp only
      rw [entriesText_lead right _ _ (by simpa using hentries)]
      exact hlead _ _
  | null | bool | int | float | text => simpa [nodeText, scalarForm?] using hbody (_ ++ _)

/-! ### Trees -/

/-- A literal below a collection is read with its indentation. -/
theorem holds_of_placed (hplaced : Placed right written indent) {cs : List Char}
    (hhint : written < 0 → hintsIndent cs → right = 0 ∧ indent = -1) :
    Holds indent right (scalarIndent written).toNat cs := by
  by_cases hroot : written < 0
  · obtain ⟨hleast, hlt⟩ := hplaced.outer hroot
    have hcolumn : (scalarIndent written).toNat = 2 := by simp [scalarIndent, hroot]
    rw [hcolumn]
    refine ⟨by omega, fun hhints => ?_⟩
    obtain ⟨rfl, rfl⟩ := hhint hroot hhints
    rfl
  · have heq := hplaced.inner (by omega)
    have hcolumn : (scalarIndent written).toNat = written.toNat + 2 := by
      rw [scalarIndent, if_neg hroot]
      omega
    rw [hcolumn]
    exact ⟨by omega, fun _ => by omega⟩

theorem Placed.least (hplaced : Placed right written indent) : -1 ≤ indent := by
  by_cases hroot : written < 0
  · exact (hplaced.outer hroot).1
  · have := hplaced.inner (by omega)
    omega

theorem Placed.lt_deeper (hplaced : Placed right written indent) :
    indent < ((right + (deeper written).toNat : Nat) : Int) := by
  unfold deeper
  by_cases hroot : written < 0
  · have := hplaced.outer hroot
    rw [if_pos hroot]
    omega
  · have := hplaced.inner (by omega)
    rw [if_neg hroot]
    omega

/-- Below an item or an entry a node is placed by the column of the mark or key before it. -/
theorem placed_natCast {column : Nat} (h : indent = ((right + column : Nat) : Int)) :
    Placed right column indent :=
  ⟨fun _ => by omega, fun hroot => absurd hroot (by omega)⟩

theorem toNat_deeper_natCast (column : Nat) : (deeper column).toNat = column + 2 := by
  unfold deeper
  split <;> omega

theorem Ahead.mono {indent' : Int} (h : Ahead indent next rest) (hle : indent ≤ indent') :
    Ahead indent' next rest :=
  ⟨h.solid, fun hne => (h.next_le hne).trans hle, h.next_eq⟩

theorem fresh_behind (pen : Pen) (tag : Option String) :
    (pen.behind tag).fresh = (pen.fresh && tag.isNone) := by
  cases tag <;> simp [Pen.behind]

theorem map_bind {α β γ : Type} (f : β → γ) (g : α → Except Fault β) (x : Except Fault α) :
    (x >>= g).map f = x >>= fun a => (g a).map f := by
  cases x <;> rfl

variable (tokens outer) in
/-- A collection behind its tag comes to its first mark, at its column. -/
theorem leads_collection {column : Nat} {body : List Char}
    (h : cursor.rest = pen.tagText tag ++ ((pen.behind tag).lead column ++ c :: body))
    (hsolid : Solid (c :: body))
    (hindent : indent < cursor.column + (gapText pen.gap).length)
    (hfresh : (pen.behind tag).fresh = true →
      allowed = true ∧ cursor.column + (gapText pen.gap).length = column) :
    columnPast cursor.column (pen.tagText tag ++ (pen.behind tag).lead column) = column ∧
      (inBlock cursor tokens indent outer none allowed).Leads ((tagTokens tag).map fun before =>
        inBlock (cursor.past (pen.tagText tag ++ (pen.behind tag).lead column) (c :: body))
          (before.reverse ++ tokens) indent outer none true) := by
  have hgap : tag.isSome → atGap ((pen.behind tag).lead column ++ c :: body) := by
    intro hsome
    rw [Pen.behind, if_pos hsome]
    rfl
  obtain ⟨candidate, hloose, hcandidate, htag⟩ := leads_tagText tokens outer allowed h hgap hindent
  have hnone : (pen.behind tag).fresh = true → tag = none := by
    rw [fresh_behind]
    cases tag <;> simp
  refine ⟨?_, htag.map fun before => ?_⟩
  · rw [columnPast_append]
    refine columnPast_lead fun hbehind => ?_
    obtain rfl := hnone hbehind
    exact (hfresh hbehind).2
  · have hbehindFresh : (pen.behind tag).fresh = true →
        (allowed && tag.isNone) = true ∧ candidate = none := by
      intro hbehind
      have hallowed : (allowed && tag.isNone) = true := by
        rw [(hfresh hbehind).1, hnone hbehind]
        rfl
      exact ⟨hallowed, hcandidate hallowed⟩
    have hlead : (inBlock (cursor.past (pen.tagText tag)
        ((pen.behind tag).lead column ++ c :: body)) (before.reverse ++ tokens) indent outer
        candidate (allowed && tag.isNone)).Leads _ := leads_lead rfl hsolid hbehindFresh hloose
    simpa using hlead

theorem exists_itemsText (right column : Nat) {items : List Tree} (hitems : items ≠ []) :
    ∃ more, itemsText right column [] items = '-' :: ' ' :: more := by
  obtain ⟨item, more, rfl⟩ := List.exists_cons_of_ne_nil hitems
  obtain ⟨c, text, htext, hc⟩ := exists_cons_nodeText right column .item true none item
  obtain rfl : c = ' ' := by simpa using hc
  refine ⟨text ++ itemsText right column (spaces (right + column)) more, ?_⟩
  rw [itemsText, htext]
  rfl

/-- The items of a sequence stand at the indentation of its key, or deeper than what is around. -/
theorem itemColumn_of_indentless {slot : Slot} (hplaced : Placed right written indent)
    (hmapping : slot.inMapping = true → 0 ≤ written) (h : indentless slot pen.fresh tag = true) :
    indent = ((right + itemColumn written slot (pen.behind tag).fresh : Nat) : Int) := by
  rw [indentless, ← fresh_behind, Bool.and_eq_true_iff] at h
  have hwritten := hmapping h.1
  have heq := hplaced.inner hwritten
  rw [itemColumn, if_pos ⟨hwritten, h⟩]
  omega

variable (written) in
theorem itemColumn_of_not_indentless {slot : Slot} (h : ¬ indentless slot pen.fresh tag = true) :
    itemColumn written slot (pen.behind tag).fresh = (deeper written).toNat := by
  rw [indentless, ← fresh_behind, Bool.and_eq_true_iff] at h
  rw [itemColumn, if_neg fun hboth => h hboth.2]

end Nodes

/-! ### What is written of a tree leads to its tokens -/

/-- A run of the lexer over the text of a node leads to the tokens of the node, wherever the node
may stand and whatever comes behind it. -/
def NodeRuns (right : Nat) (written : Int) (slot : Slot) (pen : Pen) (tag : Option String)
    (tree : Tree) : Prop :=
  ∀ (tokens : List Token) (outer : List Int) (allowed : Bool) (cursor : Cursor) ⦃indent : Int⦄
    ⦃rest : List Char⦄ ⦃next : Nat⦄, Placed right written indent →
    (written < 0 → tree.hintsIndent = true → right = 0 ∧ indent = -1) →
    cursor.rest = nodeText right written slot pen tag tree ++ (spaces next ++ rest) →
    Ahead indent next rest → indent < cursor.column + (gapText pen.gap).length →
    (pen.fresh = true → allowed = true ∧
      cursor.column + (gapText pen.gap).length = right + (deeper written).toNat) →
    (inBlock cursor tokens indent outer none allowed).Leads
      ((nodeTokens slot pen.fresh tag tree).map fun inner =>
        inBlock (cursor.past (nodeText right written slot pen tag tree ++ spaces next) rest)
          (inner.reverse ++ tokens) indent outer none true)

/-- The same of items, in the sequence that goes on at their column. -/
def ItemsRun (right column : Nat) (items : List Tree) : Prop :=
  ∀ (tokens : List Token) (outer : List Int) (cursor : Cursor) ⦃indent : Int⦄ ⦃rest : List Char⦄
    ⦃next : Nat⦄, cursor.rest = itemsText right column [] items ++ (spaces next ++ rest) →
    Ahead indent next rest → cursor.column = right + column → indent = cursor.column →
    (inBlock cursor tokens indent outer none true).Leads ((itemsTokens items).map fun inner =>
      inBlock (cursor.past (itemsText right column [] items ++ spaces next) rest)
        (inner.reverse ++ tokens) indent outer none true)

/-- The same of entries, of which the first may open the mapping. -/
def EntriesRun (right column : Nat) (entries : List (Tree × Tree)) : Prop :=
  ∀ (tokens : List Token) (outer : List Int) (cursor : Cursor) ⦃indent : Int⦄ ⦃rest : List Char⦄
    ⦃next : Nat⦄, cursor.rest = entriesText right column [] entries ++ (spaces next ++ rest) →
    Ahead cursor.column next rest → cursor.column = right + column → indent ≤ cursor.column →
    (inBlock cursor tokens indent outer none true).Leads ((entriesTokens entries).map fun inner =>
      inBlock (cursor.past (entriesText right column [] entries ++ spaces next) rest)
        (inner.reverse ++ (opening indent cursor.column .blockMappingStart ++ tokens))
        (openedAt indent outer cursor.column).1 (openedAt indent outer cursor.column).2 none true)

section Runs

variable {right column : Nat} {written : Int} {slot : Slot} {pen : Pen} {tag : Option String}

/-- A scalar or an empty collection behind its tag. -/
theorem nodeRuns_body {tree : Tree} {body : List Char} {core : List Token}
    (htokens : nodeTokens slot pen.fresh tag tree = (tagTokens tag).map (· ++ core))
    (htext : nodeText right written slot pen tag tree =
      pen.tagText tag ++ (gapText (pen.behind tag).gap ++ body))
    (hbody : ∀ ⦃indent : Int⦄ ⦃next : Nat⦄ ⦃rest : List Char⦄, Placed right written indent →
      (written < 0 → tree.hintsIndent = true → right = 0 ∧ indent = -1) →
      Ahead indent next rest → NodeBody indent next body core rest) :
    NodeRuns right written slot pen tag tree := by
  intro tokens outer allowed cursor indent rest next hplaced hhint hrest hahead hindent hfresh
  rw [htokens, htext, map_map]
  have hrun : (inBlock cursor tokens indent outer none allowed).Leads _ :=
    leads_taggedBody (hbody hplaced hhint hahead) (by simpa [htext] using hrest) hindent
  simpa using hrun

theorem nodeRuns_scalar {tree : Tree} {cs : List Char} {asked : Style} (hslot : slot ≠ .shortKey)
    (hform : scalarForm? tree = some (cs, asked))
    (htokens : nodeTokens slot pen.fresh tag tree =
      (tagTokens tag).map (· ++ [wordToken slot cs asked]))
    (htext : nodeText right written slot pen tag tree = pen.tagText tag ++
      (gapText (pen.behind tag).gap ++ (wordText right (asked.fit cs false)
        (scalarIndent written).toNat cs ++ wordEnd slot (asked.fit cs false) cs)))
    (hliteral : asked.fit cs false = .literal →
      breaksAtFeeds cs ∧ (hintsIndent cs → tree.hintsIndent = true)) :
    NodeRuns right written slot pen tag tree := by
  have hcolumn : 0 < (scalarIndent written).toNat := by
    have := scalarIndent_pos written
    omega
  exact nodeRuns_body htokens htext fun indent next rest hplaced hhint hahead =>
    nodeBody_word hslot (ne_nil_of_fit_eq_plain hform) (fun hstyle => ⟨(hliteral hstyle).1,
      holds_of_placed hplaced fun hroot hhints => hhint hroot ((hliteral hstyle).2 hhints)⟩)
      (fun _ => hcolumn) hahead

theorem nodeRuns_brackets {tree : Tree} {c c' : Char} {start stop : Token}
    (hbrackets : Brackets c c' start stop) (hslot : slot ≠ .shortKey)
    (htokens : nodeTokens slot pen.fresh tag tree = (tagTokens tag).map (· ++ [start, stop]))
    (htext : nodeText right written slot pen tag tree =
      pen.tagText tag ++ (gapText (pen.behind tag).gap ++ ([c, c'] ++ lineEnd slot))) :
    NodeRuns right written slot pen tag tree :=
  nodeRuns_body htokens htext fun _ _ _ _ _ hahead => nodeBody_brackets hslot hbrackets hahead

/-- A collection ends with its last line. -/
theorem leads_collectionEnd {start : Cursor} {body : List Char} {indent : Int} {outer : List Int}
    {next : Nat} {rest : List Char} (tokens : List Token) (hend : columnPast start.column body = 0)
    (hahead : Ahead indent next rest) (hlt : indent < start.column) (hleast : -1 ≤ indent) :
    (inBlock (start.past (body ++ spaces next) rest) tokens start.column (indent :: outer) none
      true).Leads
      (.ok (inBlock (start.past (body ++ spaces next) rest) (.blockEnd :: tokens) indent outer none
        true)) := by
  refine leads_close rfl hahead.solid hlt (fun hne => ?_) hleast
  rw [Cursor.past_column, columnPast_append, hend, columnPast_spaces, Nat.zero_add]
  exact hahead.next_le hne

theorem nodeRuns_sequence {items : List Tree} (hslot : slot ≠ .shortKey)
    (hmapping : slot.inMapping = true → 0 ≤ written) (hitems : items ≠ [])
    (htexts : ∀ s ∈ (Tree.sequence items).texts, isMovable s)
    (hruns : ItemsRun right (itemColumn written slot (pen.behind tag).fresh) items) :
    NodeRuns right written slot pen tag (.sequence items) := by
  intro tokens outer allowed cursor indent rest next hplaced hhint hrest hahead hindent hfresh
  have hnonempty : ¬ items.isEmpty := by simpa using hitems
  set column := itemColumn written slot (pen.behind tag).fresh with hcolumn
  have htext : nodeText right written slot pen tag (.sequence items) =
      pen.tagText tag ++ (pen.behind tag).lead (right + column) ++
        itemsText right column [] items := by
    rw [nodeText, if_neg hnonempty, List.append_assoc]
    exact congrArg _ (itemsText_lead right column _ hitems)
  obtain ⟨more, hmore⟩ := exists_itemsText right column hitems
  have hplace : cursor.rest = pen.tagText tag ++ ((pen.behind tag).lead (right + column) ++
      '-' :: (' ' :: (more ++ (spaces next ++ rest)))) := by
    rw [hrest, htext, hmore]
    simp
  obtain ⟨hstart, hlead⟩ := leads_collection tokens outer hplace
    (solid_of_mark .item _) hindent (fun hbehind => by
      have hpen : pen.fresh = true := by
        rw [fresh_behind, Bool.and_eq_true_iff] at hbehind
        exact hbehind.1
      refine ⟨(hfresh hpen).1, (hfresh hpen).2.trans ?_⟩
      rw [hcolumn, hbehind, itemColumn]
      simp)
  rw [htext, nodeTokens, if_neg hnonempty, map_bind]
  simp only [map_map]
  refine hlead.bind fun before => ?_
  set start := cursor.past (pen.tagText tag ++ (pen.behind tag).lead (right + column))
    ('-' :: (' ' :: (more ++ (spaces next ++ rest)))) with hstartEq
  have hstartRest : start.rest = itemsText right column [] items ++ (spaces next ++ rest) := by
    rw [hmore]
    rfl
  by_cases hless : indentless slot pen.fresh tag
  · have hsame := itemColumn_of_indentless hplaced hmapping hless
    have hrun := hruns (before.reverse ++ tokens) outer start hstartRest hahead hstart
      (hsame.trans (congrArg Nat.cast hstart.symm))
    simpa [hless, hstartEq] using hrun
  · have hdeeper := itemColumn_of_not_indentless written hless
    have hlt : indent < start.column := by
      rw [show start.column = right + column from hstart, hcolumn, hdeeper]
      exact hplaced.lt_deeper
    have hend : columnPast start.column (itemsText right column [] items) = 0 := by
      have := columnPast_nodeText right written slot pen tag hslot htexts cursor.column
      rwa [htext, columnPast_append] at this
    have hrun := hruns (.blockSequenceStart :: (before.reverse ++ tokens)) (indent :: outer)
      start hstartRest (hahead.mono hlt.le) hstart rfl
    refine (leads_open .item rfl hlt).trans (hrun.map fun inner => ?_)
    simpa [hless, hstartEq] using leads_collectionEnd
      (inner.reverse ++ .blockSequenceStart :: (before.reverse ++ tokens)) hend hahead hlt
      hplaced.least

theorem itemsText_cons (right column : Nat) (item : Tree) {more : List Tree} (hmore : more ≠ []) :
    itemsText right column [] (item :: more) = itemsText right column [] [item] ++
      (spaces (right + column) ++ itemsText right column [] more) := by
  rw [itemsText, itemsText_lead right column _ hmore]
  simp [itemsText]

theorem itemsTokens_cons (item : Tree) (more : List Tree) :
    itemsTokens (item :: more) = itemsTokens [item] >>= fun first =>
      (itemsTokens more).map (first ++ ·) := by
  rw [itemsTokens, itemsTokens]
  cases nodeTokens .item true none item with
  | error e => rfl
  | ok first => simp [itemsTokens, Except.map, bind, Except.bind]

theorem openedAt_of_le {indent : Int} {column : Nat} (h : indent ≤ column) (outer : List Int) :
    (openedAt indent outer column).1 = column := by
  unfold openedAt
  split <;> simp
  omega

/-- A mapping that is open at a column stays so. -/
theorem openedAt_self (outer : List Int) (column : Nat) :
    openedAt column outer column = (↑column, outer) := if_neg (lt_irrefl _)

theorem opening_self (column : Nat) (start : Token) : opening column column start = [] :=
  if_neg (lt_irrefl _)

/-- A mark at the column of its collection, which it opens unless it goes on. -/
theorem leads_firstMark {cursor : Cursor} {tokens : List Token} {indent : Int} {outer : List Int}
    {rest : List Char} {c : Char} {start token : Token} (hmark : BlockMark c start token)
    (h : cursor.rest = c :: ' ' :: rest) (hindent : indent ≤ cursor.column) :
    (inBlock cursor tokens indent outer none true).Leads
      (.ok (inBlock (cursor.past [c] (' ' :: rest))
        (token :: (opening indent cursor.column start ++ tokens))
        (openedAt indent outer cursor.column).1 (openedAt indent outer cursor.column).2 none
        true)) := by
  by_cases hlt : indent < cursor.column
  · rw [opening, openedAt, if_pos hlt, if_pos hlt]
    exact (leads_open hmark h hlt).trans (leads_mark hmark h rfl)
  · rw [opening, openedAt, if_neg hlt, if_neg hlt]
    exact leads_mark hmark h (by omega)

/-- A mark and the node behind it. The first mark opens the collection. -/
theorem NodeRuns.behindMark {tree : Tree} {c : Char} {start token : Token} {cursor : Cursor}
    {indent : Int} {next : Nat} {rest : List Char}
    (hnode : NodeRuns right column slot ⟨false, true⟩ none tree) (hmark : BlockMark c start token)
    (tokens : List Token) (outer : List Int)
    (hrest : cursor.rest =
      c :: (nodeText right column slot ⟨false, true⟩ none tree ++ (spaces next ++ rest)))
    (hahead : Ahead cursor.column next rest) (hcolumn : cursor.column = right + column)
    (hindent : indent ≤ cursor.column) :
    (inBlock cursor tokens indent outer none true).Leads
      ((nodeTokens slot true none tree).map fun inner =>
        inBlock (cursor.past
          (c :: (nodeText right column slot ⟨false, true⟩ none tree ++ spaces next)) rest)
          (inner.reverse ++ token :: (opening indent cursor.column start ++ tokens))
          (openedAt indent outer cursor.column).1 (openedAt indent outer cursor.column).2 none
          true) := by
  obtain ⟨d, text, htext, hd⟩ := exists_cons_nodeText right column slot true none tree
  obtain rfl : d = ' ' := by simpa using hd
  have hmarkRest : cursor.rest = c :: ' ' :: (text ++ (spaces next ++ rest)) := by
    rw [hrest, htext]
    rfl
  have hopened : (openedAt indent outer cursor.column).1 = cursor.column :=
    openedAt_of_le hindent outer
  have hrun := hnode (token :: (opening indent cursor.column start ++ tokens))
    (openedAt indent outer cursor.column).2 true
    (cursor.past [c] (' ' :: (text ++ (spaces next ++ rest))))
    (placed_natCast (hopened.trans (by rw [hcolumn]))) (fun h => absurd h (by omega))
    (by rw [htext]; rfl) (hopened ▸ hahead) (by
      show _ < ((columnPast cursor.column [c] : Nat) : Int) + 1
      rw [columnPast_of_line (by cases hmark <;> simp [isBreak])]
      omega) (fun _ => ⟨rfl, by
      show columnPast cursor.column [c] + 1 = _
      rw [columnPast_of_line (by cases hmark <;> simp [isBreak]), toNat_deeper_natCast]
      simp
      omega⟩)
  refine (leads_firstMark hmark hmarkRest hindent).trans ?_
  simpa using hrun

/-- An item alone. -/
theorem itemsRun_singleton {item : Tree}
    (hitem : NodeRuns right column .item ⟨false, true⟩ none item) :
    ItemsRun right column [item] := by
  intro tokens outer cursor indent rest next hrest hahead hcolumn hindent
  have hitemText : itemsText right column [] [item] =
      '-' :: nodeText right column .item ⟨false, true⟩ none item := by
    simp [itemsText]
  have htokens : itemsTokens [item] =
      (nodeTokens .item true none item).map (.blockEntry :: ·) := by
    rw [itemsTokens]
    cases nodeTokens .item true none item <;> simp [itemsTokens, Except.map, bind, Except.bind]
  rw [hitemText] at hrest ⊢
  subst hindent
  have hrun := hitem.behindMark .item tokens outer hrest hahead hcolumn le_rfl
  rw [openedAt_self, opening_self] at hrun
  rw [htokens, map_map]
  simpa using hrun

/-- An item and the items behind it. -/
theorem itemsRun_cons {item : Tree} {more : List Tree} (htexts : ∀ s ∈ item.texts, isMovable s)
    (hitem : ItemsRun right column [item]) (hmore : more ≠ [] → ItemsRun right column more) :
    ItemsRun right column (item :: more) := by
  by_cases hmoreNe : more = []
  · exact hmoreNe ▸ hitem
  intro tokens outer cursor indent rest next hrest hahead hcolumn hindent
  obtain ⟨text, htext⟩ := exists_itemsText right column hmoreNe
  rw [itemsText_cons right column item hmoreNe] at hrest ⊢
  have hsolid : Solid (itemsText right column [] more ++ (spaces next ++ rest)) := by
    rw [htext]
    exact solid_of_mark .item _
  have hnext : Ahead indent (right + column)
      (itemsText right column [] more ++ (spaces next ++ rest)) :=
    ⟨hsolid, fun _ => by omega, fun h => absurd h (by rw [htext]; simp)⟩
  have hfirst := hitem tokens outer cursor (by simpa using hrest) hnext hcolumn hindent
  rw [itemsTokens_cons, map_bind]
  simp only [map_map]
  refine hfirst.bind fun first => ?_
  set place := cursor.past (itemsText right column [] [item] ++ spaces (right + column))
    (itemsText right column [] more ++ (spaces next ++ rest)) with hplace
  have hend : columnPast cursor.column (itemsText right column [] [item]) = 0 := by
    simp only [itemsText, List.nil_append, List.append_nil]
    rw [columnPast, columnPast_nodeText right column .item ⟨false, true⟩ none (by decide) htexts]
  have hplaceColumn : place.column = right + column := by
    rw [hplace, Cursor.past_column, columnPast_append, hend, columnPast_spaces, Nat.zero_add]
  have hrun := hmore hmoreNe (first.reverse ++ tokens) outer place rfl hahead hplaceColumn
    (by rw [hindent, hplaceColumn, hcolumn])
  simpa [hplace] using hrun

/-! ### Entries -/

theorem entriesText_cons (right column : Nat) (entry : Tree × Tree) {more : List (Tree × Tree)}
    (hmore : more ≠ []) :
    entriesText right column [] (entry :: more) = entriesText right column [] [entry] ++
      (spaces (right + column) ++ entriesText right column [] more) := by
  obtain ⟨key, value⟩ := entry
  rw [entriesText, entriesText_lead right column _ hmore]
  simp [entriesText]

theorem entriesTokens_cons (entry : Tree × Tree) (more : List (Tree × Tree)) :
    entriesTokens (entry :: more) = entriesTokens [entry] >>= fun first =>
      (entriesTokens more).map (first ++ ·) := by
  obtain ⟨key, value⟩ := entry
  rw [entriesTokens, entriesTokens]
  cases nodeTokens (if isShortKey none key then .shortKey else .longKey) true none key with
  | error e => rfl
  | ok first =>
    cases nodeTokens .value (!isShortKey none key) none value with
    | error e => simp [bind, Except.bind]
    | ok second => simp [entriesTokens, Except.map, bind, Except.bind]

/-- The tokens of an entry alone. -/
theorem entriesTokens_singleton (key value : Tree) :
    entriesTokens [(key, value)] =
      nodeTokens (if isShortKey none key then .shortKey else .longKey) true none key >>=
        fun first => (nodeTokens .value (!isShortKey none key) none value).map fun second =>
          .key :: (first ++ .value :: second) := by
  rw [entriesTokens]
  cases nodeTokens (if isShortKey none key then .shortKey else .longKey) true none key with
  | error e => rfl
  | ok first =>
    cases nodeTokens .value (!isShortKey none key) none value with
    | error e => simp [bind, Except.bind, Except.map]
    | ok second => simp [entriesTokens, Except.map, bind, Except.bind]

theorem entriesText_short (right column : Nat) {key : Tree} (hkey : isShortKey none key)
    (value : Tree) :
    entriesText right column [] [(key, value)] =
      nodeText right column .shortKey ⟨true, true⟩ none key ++
        ':' :: nodeText right column .value ⟨false, false⟩ none value := by
  simp [entriesText, hkey]

theorem entriesText_long (right column : Nat) {key : Tree} (hkey : ¬ isShortKey none key)
    (value : Tree) :
    entriesText right column [] [(key, value)] =
      '?' :: (nodeText right column .longKey ⟨false, true⟩ none key ++ (spaces (right + column) ++
        ':' :: nodeText right column .value ⟨false, true⟩ none value)) := by
  simp [entriesText, hkey]

/-- Behind its mark a value stands behind a gap. -/
theorem atGap_nodeText (right : Nat) (written : Int) (slot : Slot) (fresh : Bool)
    (tree : Tree) (rest : List Char) :
    atGap (nodeText right written slot ⟨false, fresh⟩ none tree ++ rest) := by
  obtain ⟨c, more, htext, hc⟩ := exists_cons_nodeText right written slot fresh none tree
  rw [htext]
  rcases hc with rfl | ⟨-, rfl⟩ <;> rfl

/-- An entry starts a token. -/
theorem solid_entriesText (right column : Nat) {entries : List (Tree × Tree)}
    (hentries : entries ≠ []) (rest : List Char) :
    Solid (entriesText right column [] entries ++ rest) ∧
      entriesText right column [] entries ++ rest ≠ [] := by
  obtain ⟨⟨key, value⟩, more, rfl⟩ := List.exists_cons_of_ne_nil hentries
  have hentry (rest : List Char) : Solid (entriesText right column [] [(key, value)] ++ rest) ∧
      entriesText right column [] [(key, value)] ++ rest ≠ [] := by
    by_cases hkey : isShortKey none key
    · rw [entriesText_short right column hkey, List.append_assoc]
      exact ⟨solid_shortKey right column key hkey (atGap_nodeText _ _ _ _ _ _), by simp⟩
    · rw [entriesText_long right column hkey]
      exact ⟨solid_of_mark .key _, by simp⟩
  by_cases hmore : more = []
  · exact hmore ▸ hentry rest
  · rw [entriesText_cons right column _ hmore, List.append_assoc]
    exact hentry _

/-- An entry with a short key alone. -/
theorem entriesRun_short {key value : Tree} (hkey : isShortKey none key)
    (hvalue : NodeRuns right column .value ⟨false, false⟩ none value) :
    EntriesRun right column [(key, value)] := by
  intro tokens outer cursor indent rest next hrest hahead hcolumn hindent
  set after := nodeText right column .value ⟨false, false⟩ none value ++ (spaces next ++ rest)
    with hafter
  set keyText := nodeText right column .shortKey ⟨true, true⟩ none key with hkeyText
  have hgap : atGap after := atGap_nodeText _ _ _ _ _ _
  have hline : ∀ c ∈ keyText, isBreak c = false := by
    obtain ⟨hsame, hline⟩ := shortKey_text right column ⟨true, true⟩ none key hkey
    rw [hkeyText, hsame]
    exact fun c hc => isBreak_eq_false (hline c hc)
  have hsize : byteCount keyText ≤ keyLimit :=
    (byteCount_shortKey_le right column ⟨true, true⟩ none key hkey).trans (by decide)
  rw [entriesText_short right column hkey] at hrest ⊢
  have hfirst : (inBlock cursor tokens indent outer none true).Leads _ :=
    leads_key right column none key hkey hgap (by rw [hrest, hafter]; simp) hindent
  rw [entriesTokens_singleton, if_pos hkey, map_bind]
  simp only [map_map]
  refine hfirst.bind fun first => ?_
  have hopened : (openedAt indent outer cursor.column).1 = cursor.column :=
    openedAt_of_le hindent outer
  have hpast : (cursor.past keyText (':' :: after)).column = cursor.column + keyText.length :=
    columnPast_of_line hline _
  have hstands : Stands (cursor.past keyText (':' :: after)) indent
      (some (candidateAt cursor tokens indent)) ':' after := by
    refine ⟨rfl, solid_of_mark .value _, by omega, ?_⟩
    intro k hk
    obtain rfl := Option.some.inj hk
    exact isStale_candidateAt hline hsize
  have hnode := hvalue (.value :: (first.reverse ++ .key ::
      (opening indent cursor.column .blockMappingStart ++ tokens)))
    (openedAt indent outer cursor.column).2 false
    ((cursor.past keyText (':' :: after)).past [':'] after)
    (placed_natCast (hopened.trans (by rw [hcolumn]))) (fun h => absurd h (by omega)) rfl
    (hahead.mono (by omega)) (by
      show _ < ((columnPast (columnPast cursor.column keyText) [':'] : Nat) : Int) + 1
      rw [columnPast_of_line hline, hopened]
      show _ < ((cursor.column + keyText.length + 1 : Nat) : Int) + 1
      omega) (by simp)
  refine (leads_colon hstands hgap).trans ?_
  simpa [hkey] using hnode

/-- An entry with a long key alone. -/
theorem entriesRun_long {key value : Tree} (hkey : ¬ isShortKey none key)
    (htexts : ∀ s ∈ key.texts, isMovable s)
    (hkeyRuns : NodeRuns right column .longKey ⟨false, true⟩ none key)
    (hvalue : NodeRuns right column .value ⟨false, true⟩ none value) :
    EntriesRun right column [(key, value)] := by
  intro tokens outer cursor indent rest next hrest hahead hcolumn hindent
  set keyText := nodeText right column .longKey ⟨false, true⟩ none key with hkeyText
  set valueText := nodeText right column .value ⟨false, true⟩ none value with hvalueText
  set after := ':' :: (valueText ++ (spaces next ++ rest)) with hafter
  rw [entriesText_long right column hkey, ← hkeyText, ← hvalueText] at hrest ⊢
  have hnext : Ahead cursor.column (right + column) after :=
    ⟨solid_of_mark .value _, fun _ => by omega, fun h => absurd h (by simp [hafter])⟩
  have hkeyRun := hkeyRuns.behindMark .key tokens outer (by simpa [hafter] using hrest) hnext hcolumn
    hindent
  rw [entriesTokens_singleton, if_neg hkey, map_bind]
  simp only [map_map]
  refine Leads.bind hkeyRun fun first => ?_
  set place := cursor.past ('?' :: (keyText ++ spaces (right + column))) after with hplace
  have hplaceColumn : place.column = cursor.column := by
    rw [hplace, Cursor.past_column, columnPast, columnPast_append, hkeyText,
      columnPast_nodeText right column .longKey ⟨false, true⟩ none (by decide) htexts,
      columnPast_spaces, Nat.zero_add, hcolumn]
  have hplaceRest : place.rest = ':' :: (valueText ++ (spaces next ++ rest)) := rfl
  have hopened : (openedAt indent outer cursor.column).1 = cursor.column :=
    openedAt_of_le hindent outer
  have hvalueRun := hvalue.behindMark .value (first.reverse ++ .key ::
      (opening indent cursor.column .blockMappingStart ++ tokens))
    (openedAt indent outer cursor.column).2 hplaceRest (hplaceColumn ▸ hahead)
    (hplaceColumn.trans hcolumn) le_rfl
  rw [hplaceColumn, openedAt_self, opening_self] at hvalueRun
  rw [hopened]
  simpa [hkey, hplace] using hvalueRun

/-- An entry and the entries behind it. -/
theorem entriesRun_cons {entry : Tree × Tree} {more : List (Tree × Tree)}
    (hend : ∀ place, columnPast place (entriesText right column [] [entry]) = 0)
    (hentry : EntriesRun right column [entry]) (hmore : more ≠ [] → EntriesRun right column more) :
    EntriesRun right column (entry :: more) := by
  by_cases hmoreNe : more = []
  · exact hmoreNe ▸ hentry
  intro tokens outer cursor indent rest next hrest hahead hcolumn hindent
  rw [entriesText_cons right column entry hmoreNe] at hrest ⊢
  obtain ⟨hsolid, hne⟩ := solid_entriesText right column hmoreNe (spaces next ++ rest)
  have hopened : (openedAt indent outer cursor.column).1 = cursor.column :=
    openedAt_of_le hindent outer
  have hfirst := hentry tokens outer cursor (by simpa using hrest)
    ⟨hsolid, fun _ => by omega, fun h => absurd h hne⟩ hcolumn hindent
  rw [entriesTokens_cons, map_bind]
  simp only [map_map]
  refine hfirst.bind fun first => ?_
  set place := cursor.past (entriesText right column [] [entry] ++ spaces (right + column))
    (entriesText right column [] more ++ (spaces next ++ rest)) with hplace
  have hplaceColumn : place.column = cursor.column := by
    rw [hplace, Cursor.past_column, columnPast_append, hend, columnPast_spaces, Nat.zero_add,
      hcolumn]
  have hrun := hmore hmoreNe (first.reverse ++
      (opening indent cursor.column .blockMappingStart ++ tokens))
    (openedAt indent outer cursor.column).2 place rfl (hplaceColumn ▸ hahead)
    (hplaceColumn.trans hcolumn) (by rw [hplaceColumn])
  rw [hplaceColumn, openedAt_self, opening_self] at hrun
  rw [hopened]
  simpa [hplace] using hrun

theorem nodeRuns_mapping {entries : List (Tree × Tree)} (hslot : slot ≠ .shortKey)
    (hentries : entries ≠ []) (htexts : ∀ s ∈ (Tree.mapping entries).texts, isMovable s)
    (hruns : EntriesRun right (deeper written).toNat entries) :
    NodeRuns right written slot pen tag (.mapping entries) := by
  intro tokens outer allowed cursor indent rest next hplaced hhint hrest hahead hindent hfresh
  have hnonempty : ¬ entries.isEmpty := by simpa using hentries
  set column := (deeper written).toNat with hcolumn
  have htext : nodeText right written slot pen tag (.mapping entries) =
      pen.tagText tag ++ (pen.behind tag).lead (right + column) ++
        entriesText right column [] entries := by
    rw [nodeText, if_neg hnonempty, List.append_assoc]
    exact congrArg _ (entriesText_lead right column _ hentries)
  obtain ⟨hsolid, hne⟩ := solid_entriesText right column hentries (spaces next ++ rest)
  obtain ⟨c, body, hbody⟩ := List.exists_cons_of_ne_nil hne
  have hplace : cursor.rest = pen.tagText tag ++ ((pen.behind tag).lead (right + column) ++
      c :: body) := by
    rw [hrest, htext, ← hbody]
    simp
  obtain ⟨hstart, hlead⟩ := leads_collection tokens outer hplace
    (hbody ▸ hsolid) hindent (fun hbehind => by
      have hpen : pen.fresh = true := by
        rw [fresh_behind, Bool.and_eq_true_iff] at hbehind
        exact hbehind.1
      exact ⟨(hfresh hpen).1, (hfresh hpen).2⟩)
  rw [htext, nodeTokens, if_neg hnonempty, map_bind]
  simp only [map_map]
  refine hlead.bind fun before => ?_
  set start := cursor.past (pen.tagText tag ++ (pen.behind tag).lead (right + column)) (c :: body)
    with hstartEq
  have hstartColumn : start.column = right + column := hstart
  have hlt : indent < start.column := by
    rw [hstartColumn]
    exact hplaced.lt_deeper
  have hend : columnPast start.column (entriesText right column [] entries) = 0 := by
    have := columnPast_nodeText right written slot pen tag hslot htexts cursor.column
    rwa [htext, columnPast_append] at this
  have hrun := hruns (before.reverse ++ tokens) outer start hbody.symm
    (hahead.mono hlt.le) hstartColumn hlt.le
  rw [opening, openedAt, if_pos hlt, if_pos hlt] at hrun
  refine hrun.map fun inner => ?_
  simpa [hstartEq] using leads_collectionEnd
    (inner.reverse ++ .blockMappingStart :: (before.reverse ++ tokens)) hend hahead hlt
    hplaced.least

end Runs

mutual
/-- **What is written of a node** leads to its tokens. -/
theorem nodeRuns (right : Nat) (written : Int) (slot : Slot) (pen : Pen) (tag : Option String)
    (tree : Tree) (hslot : slot ≠ .shortKey) (hmapping : slot.inMapping = true → 0 ≤ written)
    (htexts : ∀ s ∈ tree.texts, isMovable s) : NodeRuns right written slot pen tag tree := by
  have hplain {tree : Tree} {cs : List Char} (hform : scalarForm? tree = some (cs, .plain))
      (htokens : nodeTokens slot pen.fresh tag tree =
        (tagTokens tag).map (· ++ [wordToken slot cs .plain]))
      (htext : nodeText right written slot pen tag tree = pen.tagText tag ++
        (gapText (pen.behind tag).gap ++ (wordText right (Style.plain.fit cs false)
          (scalarIndent written).toNat cs ++ wordEnd slot (Style.plain.fit cs false) cs))) :
      NodeRuns right written slot pen tag tree :=
    nodeRuns_scalar hslot hform htokens htext fun hliteral =>
      absurd (Style.of_fit_eq_literal hliteral).1 (by decide)
  cases tree with
  | tagged inner content =>
    have hcontent := nodeRuns right written slot pen (some inner) content hslot hmapping htexts
    unfold NodeRuns at hcontent ⊢
    simpa only [nodeText, nodeTokens, Tree.hintsIndent] using hcontent
  | sequence items =>
    by_cases hitems : items = []
    · subst hitems
      exact nodeRuns_brackets .sequence hslot (by simp [nodeTokens]) (by simp [nodeText])
    · exact nodeRuns_sequence hslot hmapping hitems htexts (itemsRun right _ items hitems htexts)
  | mapping entries =>
    by_cases hentries : entries = []
    · subst hentries
      exact nodeRuns_brackets .mapping hslot (by simp [nodeTokens]) (by simp [nodeText])
    · exact nodeRuns_mapping hslot hentries htexts (entriesRun right _ entries hentries
        htexts)
  | null => exact hplain rfl rfl (by simp [nodeText, scalarForm?, hslot])
  | bool b => exact hplain rfl rfl (by simp [nodeText, scalarForm?, hslot])
  | int n => exact hplain rfl rfl (by simp [nodeText, scalarForm?, hslot])
  | float x => exact hplain rfl rfl (by simp [nodeText, scalarForm?, hslot])
  | text s =>
    refine nodeRuns_scalar hslot rfl rfl (by simp [nodeText, scalarForm?, hslot]) ?_
    intro hliteral
    have hmovable := htexts s (by simp [Tree.texts])
    refine ⟨by simpa [isMovable, hliteral] using hmovable, fun hhints => ?_⟩
    simp [Tree.hintsIndent, hliteral, hhints]

theorem itemsRun (right column : Nat) (items : List Tree) (hitems : items ≠ [])
    (htexts : ∀ s ∈ Tree.textsOfItems items, isMovable s) : ItemsRun right column items := by
  cases items with
  | nil => exact absurd rfl hitems
  | cons item more =>
    have hitem : ∀ s ∈ item.texts, isMovable s := fun s hs => htexts s (List.mem_append_left _ hs)
    have hmore : ∀ s ∈ Tree.textsOfItems more, isMovable s :=
      fun s hs => htexts s (List.mem_append_right _ hs)
    exact itemsRun_cons hitem (itemsRun_singleton (nodeRuns right column .item ⟨false, true⟩ none
      item (by decide) (by simp [Slot.inMapping]) hitem)) fun hmoreNe =>
        itemsRun right column more hmoreNe hmore

theorem entriesRun (right column : Nat) (entries : List (Tree × Tree)) (hentries : entries ≠ [])
    (htexts : ∀ s ∈ Tree.textsOfEntries entries, isMovable s) : EntriesRun right column entries := by
  cases entries with
  | nil => exact absurd rfl hentries
  | cons entry more =>
    obtain ⟨key, value⟩ := entry
    have hkey : ∀ s ∈ key.texts, isMovable s := fun s hs => htexts s (List.mem_append_left _ hs)
    have hvalue : ∀ s ∈ value.texts, isMovable s :=
      fun s hs => htexts s (List.mem_append_right _ (List.mem_append_left _ hs))
    have hmore : ∀ s ∈ Tree.textsOfEntries more, isMovable s :=
      fun s hs => htexts s (List.mem_append_right _ (List.mem_append_right _ hs))
    have hvalueRuns (pen : Pen) : NodeRuns right column .value pen none value :=
      nodeRuns right column .value pen none value (by decide) (fun _ => by omega) hvalue
    have hend (pen : Pen) := columnPast_nodeText right column .value pen none (by decide) hvalue
    refine entriesRun_cons ?_ ?_ fun hmoreNe =>
      entriesRun right column more hmoreNe hmore
    · intro place
      by_cases hshort : isShortKey none key
      · rw [entriesText_short right column hshort, columnPast_append, columnPast, hend]
      · rw [entriesText_long right column hshort, columnPast, columnPast_append, columnPast_append,
          columnPast, hend]
    · by_cases hshort : isShortKey none key
      · exact entriesRun_short hshort (hvalueRuns _)
      · exact entriesRun_long hshort hkey (nodeRuns right column .longKey ⟨false, true⟩ none key
          (by decide) (fun _ => by omega) hkey) (hvalueRuns _)
end

end Lexer

end OperatorBundle.Yaml
