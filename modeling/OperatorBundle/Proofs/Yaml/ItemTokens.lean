import OperatorBundle.Proofs.Yaml.WrittenTokens

/-!
The tokens of an item behind its dash. A literal at the root of a text may have a number in its
header, which counts from the root. Behind a dash it counts from the column of the dash, so the
lines are read with two more spaces than they were written with.

* `tokens_item`: the tokens of an item behind its dash.
-/

namespace OperatorBundle.Yaml

open OperatorBundle.Text OperatorBundle.Layout

/-- A text with two more spaces before each line that is not empty; the flag says whether a line
starts here. -/
def widen : Bool → List Char → List Char
  | _, [] => []
  | atStart, c :: rest =>
    if endsLine c then c :: widen true rest
    else (if atStart then [' ', ' '] else []) ++ c :: widen false rest

variable {cs : List Char} {atStart : Bool}

theorem mem_widen {x : Char} (h : x ∈ widen atStart cs) : x ∈ cs ∨ x = ' ' := by
  induction cs generalizing atStart with
  | nil => exact .inl h
  | cons c rest ih =>
    unfold widen at h
    by_cases hends : endsLine c
    · rw [if_pos hends] at h
      rcases List.mem_cons.1 h with rfl | h
      · exact .inl List.mem_cons_self
      · exact (ih h).imp_left (List.mem_cons_of_mem c)
    · rw [if_neg hends] at h
      rcases List.mem_append.1 h with h | h
      · cases atStart with
        | false => cases h
        | true => exact .inr (by simpa using h)
      · rcases List.mem_cons.1 h with rfl | h
        · exact .inl List.mem_cons_self
        · exact (ih h).imp_left (List.mem_cons_of_mem c)

theorem mem_widen_of_mem {x : Char} (h : x ∈ cs) (atStart : Bool) : x ∈ widen atStart cs := by
  induction cs generalizing atStart with
  | nil => exact h
  | cons c rest ih =>
    unfold widen
    rcases List.mem_cons.1 h with rfl | h
    · split <;> simp
    · split <;> simp [ih h]

/-- A text that is nothing but breaks has no lines to widen. -/
theorem widen_of_breaks (h : ∀ c ∈ cs, endsLine c) (atStart : Bool) : widen atStart cs = cs := by
  induction cs generalizing atStart with
  | nil => rfl
  | cons c rest ih =>
    obtain ⟨hc, hrest⟩ := List.forall_mem_cons.1 h
    rw [widen, if_pos hc, ih hrest]

theorem length_le_widen (cs : List Char) (atStart : Bool) :
    cs.length ≤ (widen atStart cs).length := by
  induction cs generalizing atStart with
  | nil => rfl
  | cons c rest ih =>
    unfold widen
    have := ih true
    have := ih false
    split <;> simp <;> omega

/-- At the start of a line a text with any other character gets longer. -/
theorem length_lt_widen (h : ∃ c ∈ cs, endsLine c = false) :
    cs.length < (widen true cs).length := by
  induction cs with
  | nil => simp at h
  | cons c rest ih =>
    unfold widen
    by_cases hends : endsLine c
    · rw [if_pos hends]
      have := ih (by simpa [hends] using h)
      simpa using this
    · have := length_le_widen rest false
      rw [if_neg hends]
      simp
      omega

theorem head?_widen_false : (widen false cs).head? = cs.head? := by
  cases cs with
  | nil => rfl
  | cons c rest =>
    unfold widen
    split <;> rfl

theorem getLast?_widen (atStart : Bool) : (widen atStart cs).getLast? = cs.getLast? := by
  induction cs generalizing atStart with
  | nil => rfl
  | cons c rest ih =>
    unfold widen
    split
    · rw [List.getLast?_cons, List.getLast?_cons, ih]
    · rw [List.getLast?_append, List.getLast?_cons, List.getLast?_cons, ih]
      simp

/-- No line is widened that ends where it starts. -/
theorem spaceThenBreak_widen (atStart : Bool) :
    anyPair (fun a b => a = ' ' && endsLine b) (widen atStart cs) =
      anyPair (fun a b => a = ' ' && endsLine b) cs := by
  induction cs generalizing atStart with
  | nil => rfl
  | cons c rest ih =>
    unfold widen
    by_cases hends : endsLine c
    · have hspace : c ≠ ' ' := by
        rintro rfl
        exact absurd hends (by decide)
      rw [if_pos hends, anyPair_cons, anyPair_cons, ih]
      simp [hspace]
    · have hword : anyPair (fun a b => a = ' ' && endsLine b) (c :: widen false rest) =
          anyPair (fun a b => a = ' ' && endsLine b) (c :: rest) := by
        rw [anyPair_cons, anyPair_cons, ih, head?_widen_false]
      rw [if_neg hends]
      cases atStart with
      | false => exact hword
      | true =>
        simp only [if_true, List.cons_append, List.nil_append]
        rw [anyPair_cons, anyPair_cons, hword]
        have hspaceLine : endsLine ' ' = false := by decide
        simp [hspaceLine, hends]

theorem literal_widen (h : (obstacles cs).literal = false) :
    (obstacles (widen true cs)).literal = false := by
  have hne : cs ≠ [] := by
    rintro rfl
    exact absurd h (by decide)
  have hwritable := isWritable_of_literal h
  have hwide : widen true cs ≠ [] := by
    have := List.length_pos_iff.2 hne
    have := length_le_widen cs true
    exact List.length_pos_iff.1 (by omega)
  simp only [obstacles, Bool.or_eq_false_iff, decide_eq_false_iff_not] at h ⊢
  refine ⟨⟨⟨by simp [hwide], ?_⟩, ?_⟩, ?_⟩
  · rw [spaceThenBreak_widen]
    exact h.1.1.2
  · rw [List.any_eq_false]
    intro x hx
    rcases mem_widen hx with hx | rfl
    · simp [hwritable x hx]
    · decide
  · rw [getLast?_widen]
    exact h.2

theorem breaksAtFeeds_widen (h : breaksAtFeeds cs) (atStart : Bool) :
    breaksAtFeeds (widen atStart cs) := by
  induction cs generalizing atStart with
  | nil => exact h
  | cons c rest ih =>
    obtain ⟨hnext, hrest⟩ := Bool.and_eq_true_iff.1 h
    have hspace : endsLine ' ' = false := by decide
    unfold widen
    by_cases hends : endsLine c
    · rw [if_pos hends, breaksAtFeeds, Bool.and_eq_true_iff]
      refine ⟨?_, ih hrest true⟩
      cases rest with
      | nil => exact hnext
      | cons d rest =>
        rw [Bool.or_eq_true]
        by_cases hd : endsLine d
        · right
          simp [widen, hd]
        · left
          simpa [hd, hends] using hnext
    · have hword : breaksAtFeeds (c :: widen false rest) := by
        rw [breaksAtFeeds, Bool.and_eq_true_iff]
        exact ⟨by simp [hends], ih hrest false⟩
      rw [if_neg hends]
      cases atStart with
      | false => exact hword
      | true =>
        simp only [if_true, List.cons_append, List.nil_append, breaksAtFeeds, hspace,
          Bool.not_false, Bool.true_or, Bool.true_and]
        exact hword

/-- The lines of a literal at a column are those of the wider text two columns to the left. -/
theorem literalText_widen (right indent : Nat) (hfeeds : breaksAtFeeds cs) {broken : Option Char}
    (hbroken : ∀ b ∈ broken, b ≠ '\n' → cs.head?.any endsLine) :
    literalText right (indent + 2) cs broken =
      literalText right indent (widen broken.isSome cs) broken := by
  induction cs generalizing broken with
  | nil => rfl
  | cons c rest ih =>
    obtain ⟨hnext, hrest⟩ := Bool.and_eq_true_iff.1 hfeeds
    rw [literalText, widen]
    by_cases hends : endsLine c
    · have hbehind : ∀ b ∈ some c, b ≠ '\n' → rest.head?.any endsLine := by
        intro b hb hne
        obtain rfl := Option.mem_some_iff.1 hb
        simpa [hends, hne] using hnext
      have hmore := ih hrest hbehind
      rw [if_pos hends, if_pos hends, literalText, if_pos hends, hmore]
      rfl
    · have hmore := @ih hrest none (by simp)
      have hspace : endsLine ' ' = false := by decide
      have hword : literalText right indent (c :: widen false rest) none =
          c :: literalText right indent (widen false rest) none := by
        rw [literalText, if_neg hends]
        rfl
      rw [if_neg hends, if_neg hends, hmore]
      cases broken with
      | none => exact hword.symm
      | some b =>
        have hb : b = '\n' := by
          by_contra hne
          exact hends (by simpa using hbroken b rfl hne)
        subst hb
        simp only [Option.isSome_some, if_true, List.cons_append, List.nil_append]
        rw [literalText, if_neg (by simp [hspace]), literalText, if_neg (by simp [hspace]), hword]
        have hspaces : spaces (right + (indent + 2)) = spaces (right + indent) ++ [' ', ' '] := by
          rw [spaces, ← Nat.add_assoc, List.replicate_add]
          rfl
        simp [margin, hspaces]

theorem widen_append (atStart : Bool) (more : List Char) :
    widen atStart (cs ++ more) =
      widen atStart cs ++ widen (cs.getLast?.elim atStart endsLine) more := by
  induction cs generalizing atStart with
  | nil => rfl
  | cons c rest ih =>
    have hlast (b : Bool) (hb : b = endsLine c) :
        rest.getLast?.elim b endsLine = (c :: rest).getLast?.elim atStart endsLine := by
      rw [List.getLast?_cons]
      cases rest.getLast? <;> simp [hb]
    rw [List.cons_append, widen, widen]
    by_cases hends : endsLine c
    · rw [if_pos hends, if_pos hends, ih, hlast true hends.symm]
      rfl
    · rw [if_neg hends, if_neg hends, ih, hlast false (by simpa using hends)]
      simp

theorem chompingOf_concat (before : List Char) (last : Char) :
    chompingOf (before ++ [last]) = if endsLine last = false then .strip
      else if before.getLast?.all endsLine then .keep else .clip := by
  simp [chompingOf]

theorem chompingOf_widen (atStart : Bool) : chompingOf (widen atStart cs) = chompingOf cs := by
  by_cases hne : cs = []
  · rw [hne]
    rfl
  obtain ⟨before, last, rfl⟩ : ∃ before last, cs = before ++ [last] :=
    ⟨cs.dropLast, cs.getLast hne, (List.dropLast_append_getLast hne).symm⟩
  rw [widen_append, chompingOf_concat, widen]
  by_cases hends : endsLine last
  · rw [if_pos hends, widen, chompingOf_concat, getLast?_widen]
  · rw [if_neg hends, widen, ← List.append_assoc, chompingOf_concat]
    simp [hends]

/-- A text that needs its indentation in the header needs it as well with wider lines. -/
theorem literalMarks_widen (h : hintsIndent cs) :
    Page.literalMarks (widen true cs) = Page.literalMarks cs := by
  have hwide : hintsIndent (widen true cs) := by
    cases cs with
    | nil => exact h
    | cons c rest =>
      unfold widen
      by_cases hends : endsLine c
      · simp [hends, hintsIndent]
      · simp [hends, hintsIndent]
  rw [literalMarks_eq, literalMarks_eq, chompingOf_widen, h, hwide]

/-- **A literal with a number in its header**, at a column, is that of the wider text two columns to
the left. -/
theorem wordText_widen (right indent : Nat) (hhints : hintsIndent cs) (hfeeds : breaksAtFeeds cs) :
    wordText right .literal (indent + 2) cs = wordText right .literal indent (widen true cs) := by
  have hfeed : ∀ b ∈ some '\n', b ≠ '\n' → cs.head?.any endsLine := by simp
  have hlines := literalText_widen right indent hfeeds hfeed
  simp only [wordText, literalMarks_widen hhints, hlines, Option.isSome_some]

theorem fit_widen (h : (Style.ofText cs).fit cs false = .literal) :
    (Style.ofText (widen true cs)).fit (widen true cs) false = .literal := by
  obtain ⟨hstyle, hliteral, -⟩ := Style.of_fit_eq_literal h
  have hfeed : '\n' ∈ cs := by
    by_contra hnone
    rw [Style.ofText, if_neg (by simpa using hnone)] at hstyle
    split at hstyle <;> cases hstyle
  have hwide : Style.ofText (widen true cs) = .literal := by
    rw [Style.ofText, if_pos (by simpa using mem_widen_of_mem hfeed true)]
  simp [hwide, Style.fit, literal_widen hliteral]

end OperatorBundle.Yaml

namespace OperatorBundle.Tree

open OperatorBundle.Yaml

/-- A tree with wider lines in the literal at its root, if that has a number in its header. -/
def widened : Tree → Tree
  | .tagged tag content => .tagged tag (widened content)
  | .text s => if hintsIndent (.text s) then .text (String.ofList (widen true s.toList)) else .text s
  | tree => tree

theorem widened_of_not_hintsIndent (tree : Tree) (h : tree.hintsIndent = false) :
    tree.widened = tree := by
  cases tree with
  | tagged tag content => rw [widened, widened_of_not_hintsIndent content h]
  | text s => rw [widened, if_neg (by simp [h])]
  | _ => rfl

end OperatorBundle.Tree

namespace OperatorBundle.Yaml

open OperatorBundle.Text OperatorBundle.Layout

namespace Lexer

/-- A literal with a number in its header is read two columns to the left of where it was written:
with wider lines. -/
theorem nodeBody_widened {right next : Nat} {indent : Int} {cs rest : List Char}
    (hfit : (Style.ofText cs).fit cs false = .literal) (hheader : hintsIndent cs)
    (hfeeds : breaksAtFeeds cs) (hindent : indent + 2 = right) (hleast : 0 ≤ indent)
    (hahead : Ahead indent next rest) :
    NodeBody indent next (wordText right .literal 2 cs ++ wordEnd .root .literal cs)
      [wordToken .root (widen true cs) (Style.ofText (widen true cs))] rest := by
  have hwide := fit_widen hfit
  have hholds : Holds indent right 0 (widen true cs) := ⟨by omega, fun _ => by omega⟩
  have hplain : (Style.ofText (widen true cs)).fit (widen true cs) false = .plain →
      widen true cs ≠ [] := by simp [hwide]
  have hword := nodeBody_word (show Slot.root ≠ .shortKey by decide) hplain
    (fun _ => ⟨breaksAtFeeds_widen hfeeds true, hholds⟩)
    (fun hsingle => absurd (hwide.symm.trans hsingle) (by decide)) hahead
  have hend : wordEnd .root .literal (widen true cs) = wordEnd .root .literal cs := by
    simp only [wordEnd, getLast?_widen]
  rwa [hwide, ← wordText_widen right 0 hheader hfeeds, hend] at hword

/-- What is written of the root of an item, behind the dash, leads to the tokens of the tree with
wider lines. -/
theorem leads_itemRoot {right : Nat} {pen : Pen} (tag : Option String) (tree : Tree)
    (htexts : ∀ s ∈ tree.texts, isMovable s) (tokens : List Token) (outer : List Int)
    (allowed : Bool) {cursor : Cursor} {indent : Int} {rest : List Char} {next : Nat}
    (hindent : indent + 2 = right) (hleast : 0 ≤ indent)
    (hrest : cursor.rest = nodeText right (-1) .root pen tag tree ++ (spaces next ++ rest))
    (hahead : Ahead indent next rest) (hcolumn : indent < cursor.column + (gapText pen.gap).length)
    (hfresh : pen.fresh = true → allowed = true ∧
      cursor.column + (gapText pen.gap).length = right + (deeper (-1)).toNat) :
    (inBlock cursor tokens indent outer none allowed).Leads
      ((nodeTokens .root pen.fresh tag tree.widened).map fun inner =>
        inBlock (cursor.past (nodeText right (-1) .root pen tag tree ++ spaces next) rest)
          (inner.reverse ++ tokens) indent outer none true) := by
  by_cases hhints : tree.hintsIndent = false
  · rw [Tree.widened_of_not_hintsIndent tree hhints]
    exact nodeRuns right (-1) .root pen tag tree (by decide) (by decide) htexts tokens outer allowed
      cursor (placed_root ⟨by omega, by omega⟩) (fun _ h => absurd h (by simp [hhints])) hrest hahead
      hcolumn hfresh
  rw [Bool.not_eq_false] at hhints
  cases tree with
  | tagged inner content =>
    rw [nodeText] at hrest ⊢
    rw [Tree.widened, nodeTokens]
    exact leads_itemRoot (some inner) content htexts tokens outer allowed hindent hleast hrest
      hahead hcolumn hfresh
  | text s =>
    obtain ⟨hfit, hheader⟩ : (Style.ofText s.toList).fit s.toList false = .literal ∧
        hintsIndent s.toList := by
      simpa [Tree.hintsIndent] using hhints
    have hfeeds : breaksAtFeeds s.toList := by
      simpa [isMovable, hfit] using htexts s (by simp [Tree.texts])
    have hword := nodeBody_widened hfit hheader hfeeds hindent hleast hahead
    have htext : nodeText right (-1) .root pen tag (.text s) = pen.tagText tag ++
        (gapText (pen.behind tag).gap ++ (wordText right .literal 2 s.toList ++
          wordEnd .root .literal s.toList)) := by
      simp [nodeText, scalarForm?, hfit, scalarIndent]
    have htokens : nodeTokens .root pen.fresh tag (Tree.text s).widened =
        (tagTokens tag).map (· ++ [wordToken .root (widen true s.toList)
          (Style.ofText (widen true s.toList))]) := by
      rw [Tree.widened, if_pos hhints]
      simp [nodeTokens, scalarForm?]
    rw [htokens, htext, map_map]
    have hrun : (inBlock cursor tokens indent outer none allowed).Leads _ :=
      leads_taggedBody hword (by simpa [htext] using hrest) hcolumn
    simpa using hrun
  | _ => simp [Tree.hintsIndent] at hhints

theorem isWritable_of_mem_itemText {right column : Nat} {pen : Pen} {tree : Tree} :
    ∀ c ∈ spaces column ++ '-' :: ' ' :: nodeText right (-1) .root pen none tree,
      isWritable c := by
  intro c hc
  rcases List.mem_append.1 hc with hc | hc
  · exact isWritable_of_mem_spaces hc
  · rcases List.mem_cons.1 hc with rfl | hc
    · rfl
    · rcases List.mem_cons.1 hc with rfl | hc
      · rfl
      · exact isWritable_of_mem_nodeText _ _ _ _ _ _ c hc

/-- **An item behind its dash** has the tokens of the tree with wider lines, in a sequence of its
own. -/
theorem tokens_item (column : Nat) {tree : Tree} (htexts : ∀ s ∈ tree.texts, isMovable s) :
    Yaml.tokens (spaces column ++ '-' :: ' ' ::
      nodeText (column + 2) (-1) .root ⟨true, true⟩ none tree) =
      (nodeTokens .root true none tree.widened).map fun inner =>
        .blockSequenceStart :: .blockEntry :: (inner ++ [.blockEnd]) := by
  set text := nodeText (column + 2) (-1) .root ⟨true, true⟩ none tree with htext
  set start : Cursor := (⟨spaces column ++ '-' :: ' ' :: text, 0, 0, 0⟩ : Cursor).past
    (spaces column) ('-' :: ' ' :: text) with hstart
  have hcolumn : start.column = column := by simp [hstart]
  have hline :
      (inBlock ⟨spaces column ++ '-' :: ' ' :: text, 0, 0, 0⟩ [] (-1) [] none true).Leads _ :=
    leads_line (spaces column) rfl (isGap_spaces column) (solid_of_mark .item _) rfl (by simp)
  have hopen : (inBlock start [] (-1) [] none true).Leads _ := leads_open .item rfl (by omega)
  have hmark : (inBlock start [.blockSequenceStart] start.column [-1] none true).Leads _ :=
    leads_mark .item rfl rfl
  have hindent : (start.column : Int) + 2 = (column + 2 : Nat) := by
    rw [hcolumn]
    rfl
  have htextGap : (start.past ['-'] (' ' :: text)).rest =
      nodeText (column + 2) (-1) .root ⟨false, true⟩ none tree ++ (spaces 0 ++ []) := by
    rw [nodeText_gap]
    simp [spaces, htext]
  have hrun := leads_itemRoot none tree htexts [.blockEntry, .blockSequenceStart] [-1] true hindent
    (by omega) htextGap (ahead_nil start.column) (by
      show _ < ((start.column + 1 : Nat) : Int) + 1
      omega) (fun _ => ⟨rfl, by
      show start.column + 1 + 1 = _
      rw [hcolumn]
      rfl⟩)
  set stop := (start.past ['-'] (' ' :: text)).past
    (nodeText (column + 2) (-1) .root ⟨false, true⟩ none tree ++ spaces 0) [] with hstop
  have hclose (inner : List Token) :
      (inBlock stop (inner.reverse ++ [.blockEntry, .blockSequenceStart]) start.column [-1] none
        true).Leads _ :=
    leads_close rfl (ahead_nil (-1)).solid (by omega) (fun h => absurd rfl h) le_rfl
  have hreverse (inner : List Token) : .blockEnd :: (inner.reverse ++
      [.blockEntry, .blockSequenceStart]) =
        (.blockSequenceStart :: .blockEntry :: (inner ++ [.blockEnd])).reverse := by
    simp
  have hitem := hrun.map hclose
  simp only [hreverse] at hitem
  have hstopRest : stop.rest = [] := rfl
  refine tokens_of_leads isWritable_of_mem_itemText (hline.trans (hopen.trans (hmark.trans ?_))) hstopRest
  rw [map_map]
  exact hitem

end Lexer

end OperatorBundle.Yaml
