import OperatorBundle.Proofs.Tree.Sameness
import OperatorBundle.Proofs.Yaml.WrittenText

/-!
How a written tree ends. The last scalar ends it, with a line feed behind it. A literal that has a
break at its end is its own end of line, and that break may be a separator other than a line feed.

* `endsLines_toYaml_iff`: when a written tree ends its last line.
-/

namespace OperatorBundle

open OperatorBundle.Text OperatorBundle.Yaml

/-- The string with which a tree ends, if it ends with one. -/
inductive Tree.EndsIn : Tree → String → Prop
  | text (s : String) : EndsIn (.text s) s
  | tagged {tag : String} {content : Tree} {s : String} (h : EndsIn content s) :
      EndsIn (.tagged tag content) s
  | item {items : List Tree} {item : Tree} {s : String} (h : EndsIn item s) :
      EndsIn (.sequence (items ++ [item])) s
  | value {entries : List (Tree × Tree)} {key value : Tree} {s : String} (h : EndsIn value s) :
      EndsIn (.mapping (entries ++ [(key, value)])) s

/-- Whether a string is written as a literal that ends in a separator other than a line feed. -/
def EndsAtSeparator (s : String) : Prop :=
  (Style.ofText s.toList).fit s.toList false = .literal ∧
    ∃ c ∈ s.toList.getLast?, endsLine c ∧ c ≠ '\n'

/-- Whether no scalar at the end of a tree takes a separator for its end of line. -/
def Tree.EndsAtFeed (tree : Tree) : Prop := ∀ s, tree.EndsIn s → ¬EndsAtSeparator s

/-- Whether a text ends its last line. The empty text has no line to end. -/
def EndsLines (text : List Char) : Prop := ∀ c ∈ text.getLast?, c = '\n'

/-! ### Ends of trees -/

namespace Tree

theorem endsAtFeed_tagged {tag : String} {content : Tree} :
    (Tree.tagged tag content).EndsAtFeed ↔ content.EndsAtFeed :=
  ⟨fun h s hs => h s (.tagged hs), fun h s hs => by cases hs with | tagged hs => exact h s hs⟩

theorem endsAtFeed_nil_sequence : (Tree.sequence []).EndsAtFeed := by
  intro s hs
  generalize hnil : Tree.sequence [] = tree at hs
  cases hs with
  | item => exact absurd (Tree.sequence.inj hnil).symm (by simp)
  | text | tagged | value => cases hnil

theorem endsAtFeed_nil_mapping : (Tree.mapping []).EndsAtFeed := by
  intro s hs
  generalize hnil : Tree.mapping [] = tree at hs
  cases hs with
  | value => exact absurd (Tree.mapping.inj hnil).symm (by simp)
  | text | tagged | item => cases hnil

theorem endsAtFeed_sequence {items : List Tree} {item : Tree} :
    (Tree.sequence (items ++ [item])).EndsAtFeed ↔ item.EndsAtFeed := by
  refine ⟨fun h s hs => h s (.item hs), fun h s hs => ?_⟩
  generalize hall : Tree.sequence (items ++ [item]) = tree at hs
  cases hs with
  | item hs =>
    obtain ⟨-, hlast⟩ := List.append_inj' (Tree.sequence.inj hall) rfl
    obtain rfl := List.singleton_inj.1 hlast
    exact h s hs
  | text | tagged | value => cases hall

theorem endsAtFeed_mapping {entries : List (Tree × Tree)} {key value : Tree} :
    (Tree.mapping (entries ++ [(key, value)])).EndsAtFeed ↔ value.EndsAtFeed := by
  refine ⟨fun h s hs => h s (.value hs), fun h s hs => ?_⟩
  generalize hall : Tree.mapping (entries ++ [(key, value)]) = tree at hs
  cases hs with
  | value hs =>
    obtain ⟨-, hlast⟩ := List.append_inj' (Tree.mapping.inj hall) rfl
    obtain ⟨-, rfl⟩ := Prod.mk.inj (List.singleton_inj.1 hlast)
    exact h s hs
  | text | tagged | item => cases hall

end Tree

namespace Yaml

/-! ### Ends of texts -/

variable {right indent : Nat} {cs : List Char}

/-- A literal that ends in a break ends its text with it. -/
theorem getLast?_literalText {c : Char} (hlast : cs.getLast? = some c) (hc : endsLine c)
    (broken : Option Char) : (literalText right indent cs broken).getLast? = some c := by
  induction cs generalizing broken with
  | nil => cases hlast
  | cons first rest ih =>
    cases rest with
    | nil =>
      obtain rfl : first = c := by simpa using hlast
      simp [literalText, hc]
    | cons next more =>
      rw [List.getLast?_cons_cons] at hlast
      rw [literalText]
      split_ifs with hends
      · have hrest := ih hlast (some first)
        rw [List.getLast?_append_of_ne_nil _ (List.cons_ne_nil _ _), List.getLast?_cons, hrest]
        rfl
      · have hrest := ih hlast none
        rw [List.getLast?_append_of_ne_nil _ (List.cons_ne_nil _ _), List.getLast?_cons, hrest]
        rfl

/-- A scalar ends with a line feed, or with the separator at the end of a literal. -/
theorem getLast?_word {slot : Slot} (hslot : slot ≠ .shortKey) (style : Style)
    (before : List Char) :
    ∃ c, (before ++ wordText right style indent cs ++ wordEnd slot style cs).getLast? = some c ∧
      (c = '\n' ↔ ¬(style = .literal ∧ ∃ d ∈ cs.getLast?, endsLine d ∧ d ≠ '\n')) := by
  by_cases hends : style = .literal ∧ cs.getLast?.any endsLine
  · obtain ⟨rfl, hany⟩ := hends
    cases hlast : cs.getLast? with
    | none => simp [hlast] at hany
    | some c =>
      have hc : endsLine c := by simpa [hlast] using hany
      have hend : wordEnd slot .literal cs = [] := by
        rw [wordEnd, if_pos ⟨rfl, hany⟩]
      have hliteral : (literalText right indent cs (some '\n')).getLast? = some c :=
        getLast?_literalText hlast hc _
      refine ⟨c, ?_, by simp [hc]⟩
      rw [hend, List.append_nil, wordText, ← List.cons_append, ← List.append_assoc,
        List.getLast?_append, List.getLast?_cons, hliteral]
      rfl
  · have hend : wordEnd slot style cs = ['\n'] := by
      rw [wordEnd, if_neg hends, lineEnd, if_neg hslot]
    refine ⟨'\n', by rw [hend, List.getLast?_concat], iff_of_true rfl ?_⟩
    rintro ⟨rfl, d, hd, hbreak, -⟩
    exact hends ⟨rfl, by rw [Option.mem_def.1 hd]; exact hbreak⟩

theorem exists_itemsText_append (right column : Nat) (lead : List Char) (items : List Tree)
    (item : Tree) : ∃ before, itemsText right column lead (items ++ [item]) =
      before ++ nodeText right column .item ⟨false, true⟩ none item := by
  induction items generalizing lead with
  | nil => exact ⟨lead ++ ['-'], by simp [itemsText]⟩
  | cons first more ih =>
    obtain ⟨before, hbefore⟩ := ih (spaces (right + column))
    rw [List.cons_append, itemsText, hbefore, ← List.append_assoc]
    exact ⟨_, rfl⟩

theorem exists_entriesText_append (right column : Nat) (lead : List Char)
    (entries : List (Tree × Tree)) (key value : Tree) :
    ∃ before pen, entriesText right column lead (entries ++ [(key, value)]) =
      before ++ nodeText right column .value pen none value := by
  induction entries generalizing lead with
  | nil =>
    simp only [List.nil_append, entriesText, List.append_nil]
    split_ifs
    · exact ⟨lead ++ nodeText right column .shortKey ⟨true, true⟩ none key ++ [':'],
        ⟨false, false⟩, by simp⟩
    · exact ⟨lead ++ '?' :: nodeText right column .longKey ⟨false, true⟩ none key ++
        spaces (right + column) ++ [':'], ⟨false, true⟩, by simp⟩
  | cons first more ih =>
    obtain ⟨before, pen, hbefore⟩ := ih (spaces (right + column))
    rw [List.cons_append, entriesText, hbefore, ← List.append_assoc]
    exact ⟨_, pen, rfl⟩

theorem endsAtFeed_of_scalarForm? {tree : Tree} {style : Style}
    (h : scalarForm? tree = some (cs, style)) :
    tree.EndsAtFeed ↔
      ¬(style.fit cs false = .literal ∧ ∃ d ∈ cs.getLast?, endsLine d ∧ d ≠ '\n') := by
  cases tree with
  | text s =>
    obtain ⟨rfl, rfl⟩ := Prod.mk.inj (Option.some.inj h)
    exact ⟨fun hs => hs s (.text s), fun hs _ hends => by cases hends; exact hs⟩
  | null | bool | int | float =>
    obtain ⟨-, rfl⟩ := Prod.mk.inj (Option.some.inj h)
    refine iff_of_true (fun s hs => by cases hs) ?_
    rintro ⟨hliteral, -⟩
    cases (Style.of_fit_eq_literal hliteral).1
  | sequence | mapping | tagged => cases h

theorem getLast?_scalar {slot : Slot} (hslot : slot ≠ .shortKey) {tree : Tree} {style : Style}
    (h : scalarForm? tree = some (cs, style)) (before : List Char) :
    ∃ c, (before ++ wordText right (style.fit cs (slot = .shortKey)) indent cs ++
      wordEnd slot (style.fit cs (slot = .shortKey)) cs).getLast? = some c ∧
      (c = '\n' ↔ tree.EndsAtFeed) := by
  rw [endsAtFeed_of_scalarForm? h, decide_eq_false hslot]
  exact getLast?_word hslot _ before

theorem getLast?_behind {before node : List Char} {last : Tree}
    (h : ∃ c, node.getLast? = some c ∧ (c = '\n' ↔ last.EndsAtFeed)) :
    ∃ c, (before ++ node).getLast? = some c ∧ (c = '\n' ↔ last.EndsAtFeed) := by
  obtain ⟨c, hc, hfeed⟩ := h
  exact ⟨c, by rw [List.getLast?_append, hc]; rfl, hfeed⟩

/-- The end of a written node is that of the scalar which is written last. -/
theorem getLast?_node (tree : Tree) (indent : Int) {slot : Slot} (hslot : slot ≠ .shortKey)
    (pen : Pen) (tag : Option String) :
    ∃ c, (nodeText right indent slot pen tag tree).getLast? = some c ∧
      (c = '\n' ↔ tree.EndsAtFeed) := by
  have hline : lineEnd slot = ['\n'] := by rw [lineEnd, if_neg hslot]
  induction tree using Tree.inductionOn generalizing indent slot pen tag with
  | null | bool | int | float | text => exact getLast?_scalar hslot rfl _
  | tagged inner content ih =>
    rw [nodeText, Tree.endsAtFeed_tagged]
    exact ih indent hslot pen (some inner) hline
  | sequence items ih =>
    rcases List.eq_nil_or_concat items with rfl | ⟨init, last, rfl⟩
    · refine ⟨'\n', ?_, iff_of_true rfl Tree.endsAtFeed_nil_sequence⟩
      simp [nodeText, hline]
    · rw [List.concat_eq_append] at *
      rw [nodeText, if_neg (by simp), Tree.endsAtFeed_sequence]
      dsimp only
      set column := itemColumn indent slot (pen.behind tag).fresh
      obtain ⟨before, hbefore⟩ := exists_itemsText_append right column
        ((pen.behind tag).lead (right + column)) init last
      rw [hbefore]
      exact getLast?_behind (getLast?_behind (ih last (by simp) _ (by decide) _ none rfl))
  | mapping entries ih =>
    rcases List.eq_nil_or_concat entries with rfl | ⟨init, ⟨key, value⟩, rfl⟩
    · refine ⟨'\n', ?_, iff_of_true rfl Tree.endsAtFeed_nil_mapping⟩
      simp [nodeText, hline]
    · rw [List.concat_eq_append] at *
      rw [nodeText, if_neg (by simp), Tree.endsAtFeed_mapping]
      dsimp only
      set column := (deeper indent).toNat
      obtain ⟨before, inner, hbefore⟩ := exists_entriesText_append right column
        ((pen.behind tag).lead (right + column)) init key value
      rw [hbefore]
      have hvalue := (ih (key, value) (by simp)).2
      exact getLast?_behind (getLast?_behind (hvalue _ (by decide) _ none rfl))

end Yaml

/-- **When a written tree ends its last line**: if it does not end in a literal with a separator at
its end. -/
theorem endsLines_toYaml_iff {tree : Tree} {text : String} (h : tree.toYaml = .ok text) :
    EndsLines text.toList ↔ tree.EndsAtFeed := by
  have hslot : Slot.root ≠ .shortKey := by decide
  obtain ⟨c, hlast, hfeed⟩ := Yaml.getLast?_node tree (-1) hslot ⟨true, true⟩ none
  rw [EndsLines, Tree.toList_of_toYaml h, hlast, ← hfeed]
  simp

end OperatorBundle
