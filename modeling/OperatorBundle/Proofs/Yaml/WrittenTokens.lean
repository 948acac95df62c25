import OperatorBundle.Proofs.Locator.Change
import OperatorBundle.Proofs.Yaml.Nesting
import OperatorBundle.Proofs.Yaml.NodeReading
import OperatorBundle.Proofs.Yaml.NodeTokens

/-!
The tokens of texts that hold nothing but what is written of a tree: its own text, an entry further
right, and an item behind its dash.

* `tokens_nodeText`, `tokens_mapping`, `tokens_item`: these tokens do not depend on the margin.
-/

namespace OperatorBundle.Yaml

open OperatorBundle.Text OperatorBundle.Layout

/-! ### Tokens of trees -/

theorem of_mem_tagTokens {tag : Option String} {before : List Token}
    (h : tagTokens tag = .ok before) : ∀ t ∈ before, ∃ text, t = .tag text := by
  cases tag with
  | none =>
    cases h
    simp
  | some tag =>
    obtain ⟨result, -, rfl⟩ := map_eq_ok.1 h
    simp

mutual
/-- No document ends within a tree. -/
theorem documentEnd_notMem_nodeTokens (slot : Slot) (fresh : Bool) (tag : Option String)
    (tree : Tree) {tokens : List Token} (h : nodeTokens slot fresh tag tree = .ok tokens) :
    .documentEnd ∉ tokens := by
  have htag {before : List Token} (hbefore : tagTokens tag = .ok before) :
      .documentEnd ∉ before := by
    intro hmem
    obtain ⟨text, htext⟩ := of_mem_tagTokens hbefore _ hmem
    cases htext
  cases tree with
  | tagged inner content =>
    rw [nodeTokens] at h
    exact documentEnd_notMem_nodeTokens slot fresh (some inner) content h
  | sequence items =>
    rw [nodeTokens] at h
    split at h
    · obtain ⟨before, hbefore, rfl⟩ := map_eq_ok.1 h
      simp [htag hbefore]
    · obtain ⟨before, hbefore, h⟩ := bind_eq_ok.1 h
      obtain ⟨inner, hinner, rfl⟩ := map_eq_ok.1 h
      have := documentEnd_notMem_itemsTokens items hinner
      split <;> simp [htag hbefore, this]
  | mapping entries =>
    rw [nodeTokens] at h
    split at h
    · obtain ⟨before, hbefore, rfl⟩ := map_eq_ok.1 h
      simp [htag hbefore]
    · obtain ⟨before, hbefore, h⟩ := bind_eq_ok.1 h
      obtain ⟨inner, hinner, rfl⟩ := map_eq_ok.1 h
      have := documentEnd_notMem_entriesTokens entries hinner
      simp [htag hbefore, this]
  | null | bool | int | float | text =>
    obtain ⟨before, hbefore, rfl⟩ := map_eq_ok.1 h
    simp [htag hbefore, wordToken]

theorem documentEnd_notMem_itemsTokens (items : List Tree) {tokens : List Token}
    (h : itemsTokens items = .ok tokens) : .documentEnd ∉ tokens := by
  cases items with
  | nil =>
    cases h
    simp
  | cons item more =>
    rw [itemsTokens] at h
    obtain ⟨first, hfirst, h⟩ := bind_eq_ok.1 h
    obtain ⟨rest, hrest, rfl⟩ := map_eq_ok.1 h
    have hitem := documentEnd_notMem_nodeTokens .item true none item hfirst
    have hmore := documentEnd_notMem_itemsTokens more hrest
    simp [hitem, hmore]

theorem documentEnd_notMem_entriesTokens (entries : List (Tree × Tree)) {tokens : List Token}
    (h : entriesTokens entries = .ok tokens) : .documentEnd ∉ tokens := by
  cases entries with
  | nil =>
    cases h
    simp
  | cons entry more =>
    obtain ⟨key, value⟩ := entry
    rw [entriesTokens] at h
    obtain ⟨first, hfirst, h⟩ := bind_eq_ok.1 h
    obtain ⟨second, hsecond, h⟩ := bind_eq_ok.1 h
    obtain ⟨rest, hrest, rfl⟩ := map_eq_ok.1 h
    have hkey := documentEnd_notMem_nodeTokens _ true none key hfirst
    have hvalue := documentEnd_notMem_nodeTokens .value _ none value hsecond
    have hmore := documentEnd_notMem_entriesTokens more hrest
    simp [hkey, hvalue, hmore]
end

/-- The tokens of a tree that stands in no mapping start with one that a node may start with. -/
theorem exists_cons_nodeTokens {slot : Slot} (hslot : slot.inMapping = false) (fresh : Bool)
    (tag : Option String) (tree : Tree) {tokens : List Token}
    (h : nodeTokens slot fresh tag tree = .ok tokens) :
    ∃ token more, tokens = token :: more ∧ Reader.startsNode token := by
  have hbehind {before core : List Token} (hbefore : tagTokens tag = .ok before)
      (hcore : ∃ token more, core = token :: more ∧ Reader.startsNode token) :
      ∃ token more, before ++ core = token :: more ∧ Reader.startsNode token := by
    cases before with
    | nil => exact hcore
    | cons token more =>
      obtain ⟨text, rfl⟩ := of_mem_tagTokens hbefore token List.mem_cons_self
      exact ⟨_, _, rfl, rfl⟩
  cases tree with
  | tagged inner content =>
    rw [nodeTokens] at h
    exact exists_cons_nodeTokens hslot fresh (some inner) content h
  | sequence items =>
    rw [nodeTokens] at h
    split at h
    · obtain ⟨before, hbefore, rfl⟩ := map_eq_ok.1 h
      exact hbehind hbefore ⟨_, _, rfl, rfl⟩
    · obtain ⟨before, hbefore, h⟩ := bind_eq_ok.1 h
      obtain ⟨inner, -, rfl⟩ := map_eq_ok.1 h
      have hindentless : indentless slot fresh tag = false := by simp [indentless, hslot]
      rw [hindentless]
      exact hbehind hbefore ⟨_, _, rfl, rfl⟩
  | mapping entries =>
    rw [nodeTokens] at h
    split at h
    · obtain ⟨before, hbefore, rfl⟩ := map_eq_ok.1 h
      exact hbehind hbefore ⟨_, _, rfl, rfl⟩
    · obtain ⟨before, hbefore, h⟩ := bind_eq_ok.1 h
      obtain ⟨inner, -, rfl⟩ := map_eq_ok.1 h
      exact hbehind hbefore ⟨_, _, rfl, rfl⟩
  | null | bool | int | float | text =>
    obtain ⟨before, hbefore, rfl⟩ := map_eq_ok.1 h
    exact hbehind hbefore ⟨_, _, rfl, rfl⟩

/-! ### Texts -/

theorem normaliseBreaks_of_isWritable {text : List Char} (h : ∀ c ∈ text, isWritable c) :
    normaliseBreaks text = text := by
  induction text with
  | nil => rfl
  | cons c rest ih =>
    obtain ⟨hc, hrest⟩ := List.forall_mem_cons.1 h
    have hreturn : c ≠ '\r' := by
      rintro rfl
      exact absurd hc (by decide)
    have hnext : c ≠ '\x85' := by
      rintro rfl
      exact absurd hc (by decide)
    rw [normaliseBreaks, ih hrest, if_neg (by simp [hreturn, hnext])]
    rintro rest rfl
    exact absurd rfl hreturn

namespace Lexer

/-- At the end of the text nothing is left to do. -/
theorem run_end {cursor : Cursor} (h : cursor.rest = []) (tokens : List Token) (fuel : Nat) :
    (inBlock cursor tokens (-1) [] none true).run (fuel + 1) =
      .ok (inBlock cursor tokens (-1) [] none true) := by
  have hsolid : Solid [] := by
    intro c hc
    cases hc
  have harrive : (inBlock cursor tokens (-1) [] none true).arrive = _ :=
    arrive_inBlock [] h isGap_nil hsolid (by simp)
  rw [Cursor.past_nil h] at harrive
  rw [run_succ, harrive]
  show resume fuel (inBlock cursor tokens (-1) [] none true) = _
  rw [resume]
  show (cursor.rest.head?.elim _ _ : Except Fault Lexer) = _
  rw [h]
  rfl

/-- The tokens of a text are those that a run over all of it leads to. -/
theorem tokens_of_leads {text : List Char} {x : Except Fault (List Token)} {stop : Cursor}
    (hwritable : ∀ c ∈ text, isWritable c)
    (h : (inBlock ⟨text, 0, 0, 0⟩ [] (-1) [] none true).Leads
      (x.map fun inner => inBlock stop inner.reverse (-1) [] none true)) (hstop : stop.rest = []) :
    Yaml.tokens text = x := by
  obtain ⟨steps, hsteps, hrun⟩ := h
  have hall : text.all isAllowed = true :=
    List.all_eq_true.2 fun c hc => isAllowed_of_isWritable (hwritable c hc)
  have hfuel : text.length + 1 = steps + (text.length - steps + 1) := by
    have hle : steps ≤ text.length := (Nat.le_add_right _ _).trans hsteps
    omega
  have hstart : (Lexer.start text).run (text.length + 1) =
      (x.map fun inner => inBlock stop inner.reverse (-1) [] none true) >>=
        run (text.length - steps + 1) := by
    rw [hfuel]
    exact hrun _
  rw [Yaml.tokens, if_pos hall, normaliseBreaks_of_isWritable hwritable]
  dsimp only
  rw [hstart]
  cases x with
  | error e => rfl
  | ok inner =>
    show (run (text.length - steps + 1) (inBlock stop inner.reverse (-1) [] none true) >>= _) = _
    rw [run_end hstop]
    exact congrArg Except.ok (List.reverse_reverse inner)

theorem ahead_nil (indent : Int) : Ahead indent 0 [] := by
  refine ⟨?_, fun h => absurd rfl h, fun _ => rfl⟩
  intro c hc
  cases hc

/-- The root of a text stands left of all that is written. -/
theorem placed_root {right : Nat} {indent : Int} (h : -1 ≤ indent ∧ indent < right) :
    Placed right (-1) indent :=
  ⟨fun hroot => absurd hroot (by decide), fun _ => h⟩

/-- **The own text of a tree** has its tokens. -/
theorem tokens_nodeText {tree : Tree} (htexts : ∀ s ∈ tree.texts, isMovable s) :
    Yaml.tokens (nodeText 0 (-1) .root ⟨true, true⟩ none tree) =
      nodeTokens .root true none tree := by
  have hrun := nodeRuns 0 (-1) .root ⟨true, true⟩ none tree (by decide) (by decide) htexts [] [] true
    ⟨nodeText 0 (-1) .root ⟨true, true⟩ none tree, 0, 0, 0⟩ (placed_root (by decide))
    (fun _ _ => ⟨rfl, rfl⟩) (by simp [spaces]) (ahead_nil (-1)) (by simp [gapText])
    (fun _ => ⟨rfl, rfl⟩)
  simp only [List.append_nil] at hrun
  exact tokens_of_leads (isWritable_of_mem_nodeText 0 (-1) .root ⟨true, true⟩ none tree) hrun rfl

/-- **A mapping further right** has the tokens of the mapping. -/
theorem tokens_mapping (right : Nat) {entries : List (Tree × Tree)} (hentries : entries ≠ [])
    (htexts : ∀ s ∈ (Tree.mapping entries).texts, isMovable s) :
    Yaml.tokens (spaces right ++ nodeText right (-1) .root ⟨true, true⟩ none (.mapping entries)) =
      nodeTokens .root true none (.mapping entries) := by
  set text := nodeText right (-1) .root ⟨true, true⟩ none (.mapping entries) with htext
  have hsolid : Solid text := by
    have hnonempty : ¬ entries.isEmpty := by simpa using hentries
    have hentriesText : text = entriesText right 0 [] entries := by
      rw [htext, nodeText, if_neg hnonempty]
      rfl
    rw [hentriesText]
    simpa using (solid_entriesText right 0 hentries []).1
  have hwritable : ∀ c ∈ spaces right ++ text, isWritable c := by
    intro c hc
    rcases List.mem_append.1 hc with hc | hc
    · exact isWritable_of_mem_spaces hc
    · exact isWritable_of_mem_nodeText _ _ _ _ _ _ c hc
  have hline : (inBlock ⟨spaces right ++ text, 0, 0, 0⟩ [] (-1) [] none true).Leads _ :=
    leads_line (spaces right) rfl (isGap_spaces right) hsolid rfl (by simp)
  have hrun := nodeRuns right (-1) .root ⟨true, true⟩ none (.mapping entries) (by decide) (by decide)
    htexts [] [] true ((⟨spaces right ++ text, 0, 0, 0⟩ : Cursor).past (spaces right) text)
    (placed_root ⟨le_rfl, by omega⟩) (fun _ h => absurd h (by simp [Tree.hintsIndent]))
    (by simp [spaces, htext]) (ahead_nil (-1)) (by simp [gapText]; omega)
    (fun _ => ⟨rfl, by simp [gapText, deeper]⟩)
  simp only [List.append_nil] at hrun
  exact tokens_of_leads hwritable (hline.trans hrun) rfl

/-- A gap before a node on a fresh line. -/
theorem nodeText_gap (right : Nat) (written : Int) (slot : Slot) (tag : Option String)
    (tree : Tree) :
    nodeText right written slot ⟨false, true⟩ tag tree =
      ' ' :: nodeText right written slot ⟨true, true⟩ tag tree := by
  have hbody (body : List Char) : (⟨false, true⟩ : Pen).tagText tag ++
      (gapText ((⟨false, true⟩ : Pen).behind tag).gap ++ body) =
        ' ' :: ((⟨true, true⟩ : Pen).tagText tag ++
          (gapText ((⟨true, true⟩ : Pen).behind tag).gap ++ body)) := by
    cases tag <;> rfl
  have hlead (column : Nat) (body : List Char) : (⟨false, true⟩ : Pen).tagText tag ++
      (((⟨false, true⟩ : Pen).behind tag).lead column ++ body) =
        ' ' :: ((⟨true, true⟩ : Pen).tagText tag ++
          (((⟨true, true⟩ : Pen).behind tag).lead column ++ body)) := by
    cases tag <;> rfl
  have hfresh :
      ((⟨false, true⟩ : Pen).behind tag).fresh = ((⟨true, true⟩ : Pen).behind tag).fresh := by
    cases tag <;> rfl
  cases tree with
  | tagged inner content =>
    rw [nodeText, nodeText]
    exact nodeText_gap right written slot (some inner) content
  | sequence items =>
    rw [nodeText, nodeText]
    by_cases hitems : items = []
    · subst hitems
      simpa using hbody (['[', ']'] ++ lineEnd slot)
    · rw [if_neg (by simpa using hitems), if_neg (by simpa using hitems)]
      dsimp only
      rw [itemsText_lead right _ _ hitems,
        itemsText_lead right _ (Pen.lead (Pen.behind _ _) _) hitems, hfresh]
      exact hlead _ _
  | mapping entries =>
    rw [nodeText, nodeText]
    by_cases hentries : entries = []
    · subst hentries
      simpa using hbody (['{', '}'] ++ lineEnd slot)
    · rw [if_neg (by simpa using hentries), if_neg (by simpa using hentries)]
      dsimp only
      rw [entriesText_lead right _ _ hentries,
        entriesText_lead right _ (Pen.lead (Pen.behind _ _) _) hentries]
      exact hlead _ _
  | null | bool | int | float | text => simpa [nodeText, scalarForm?] using hbody (_ ++ _)

end Lexer

end OperatorBundle.Yaml
