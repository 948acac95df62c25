import OperatorBundle.Proofs.Layout.Shift
import OperatorBundle.Proofs.Tree.Identity
import OperatorBundle.Proofs.Yaml.ItemTokens

/-!
Entries and items written anew are read back. What is written of a tree has the same tokens at every
margin, and an item behind its dash is read as a sequence of what the item is alone, but for a
literal at its root whose header has a number: the number counts from the column of the dash, and the
lines are read with two more spaces.

* `fresh_pieces_read_back`: when an entry or item written anew is read back.
* `item_misread`: an item that is not.
-/

namespace OperatorBundle.Tree

open OperatorBundle.Yaml

/-- The string of a tree that is one, under its tags. -/
def word? : Tree → Option String
  | .tagged _ content => word? content
  | .text s => some s
  | _ => none

/-- Whether a tree is, under its tags, a literal with a number in its header and with a line that is
not empty: one whose lines stand elsewhere behind a dash. -/
def isMisplaced (tree : Tree) : Bool :=
  tree.hintsIndent && tree.word?.any fun s => s.toList.any fun c => !endsLine c

theorem word?_of_same (a b : Tree) (h : a.same b) : a.word? = b.word? := by
  cases a with
  | tagged tag content =>
    cases b with
    | tagged tag' content' =>
      rw [same, Bool.and_eq_true_iff] at h
      exact word?_of_same content content' h.2
    | _ => simp [same] at h
  | text s =>
    cases b with
    | text s' => simpa [same, word?] using h
    | _ => simp [same] at h
  | _ => cases b <;> first | rfl | simp [same] at h

theorem widened_of_not_misplaced (value : Tree) (h : value.isMisplaced = false) :
    value.widened = value := by
  cases value with
  | tagged tag content => rw [widened, widened_of_not_misplaced content h]
  | text s =>
    rw [widened]
    split
    · rename_i hhints
      have hbreaks : ∀ c ∈ s.toList, endsLine c := by
        simpa [isMisplaced, word?, hhints] using h
      rw [widen_of_breaks hbreaks, String.ofList_toList]
    · rfl
  | _ => rfl

end OperatorBundle.Tree

namespace OperatorBundle.Yaml

open OperatorBundle.Text OperatorBundle.Layout

/-- A literal at the root of a tree is a scalar behind a tag or none, with wider lines as well. -/
theorem exists_nodeTokens_of_hintsIndent (fresh : Bool) (tag : Option String) (tree : Tree)
    (h : tree.hintsIndent) :
    ∃ inner s, tree.word? = some s ∧
      nodeTokens .root fresh tag tree =
        (tagTokens inner).map (· ++ [.scalar s.toList false]) ∧
      nodeTokens .root fresh tag tree.widened =
        (tagTokens inner).map (· ++ [.scalar (widen true s.toList) false]) := by
  cases tree with
  | tagged inner content =>
    rw [Tree.widened, nodeTokens, nodeTokens]
    exact exists_nodeTokens_of_hintsIndent fresh (some inner) content h
  | text s =>
    have hfit : (Style.ofText s.toList).fit s.toList false = .literal := by
      simp only [Tree.hintsIndent, Bool.and_eq_true, decide_eq_true_eq] at h
      exact h.1
    refine ⟨tag, s, rfl, ?_, ?_⟩
    · simp [nodeTokens, scalarForm?, wordToken, hfit]
    · rw [Tree.widened, if_pos h]
      simp [nodeTokens, scalarForm?, wordToken, fit_widen hfit]
  | _ => simp [Tree.hintsIndent] at h

/-- The text of a scalar behind a tag or none has no part in how the tag is read. -/
theorem exists_scalar_of_ofTokens {tag : Option String} {before : List Token} {text : List Char}
    {plain : Bool} {root : Node} (hbefore : tagTokens tag = .ok before)
    (h : Node.ofTokens (before ++ [.scalar text plain]) = .ok root) :
    ∃ p, root = .scalar p text plain ∧
      ∀ other, Node.ofTokens (before ++ [.scalar other plain]) = .ok (.scalar p other plain) := by
  cases tag with
  | none =>
    obtain rfl : [] = before := Except.ok.inj hbefore
    exact ⟨.none, (Except.ok.inj h).symm, fun other => rfl⟩
  | some tag =>
    obtain ⟨result, -, rfl⟩ := map_eq_ok.1 hbefore
    rw [List.singleton_append, Node.ofTokens_taggedScalar, map_eq_ok] at h
    obtain ⟨bytes, hbytes, rfl⟩ := h
    refine ⟨_, rfl, fun other => ?_⟩
    rw [List.singleton_append, Node.ofTokens_taggedScalar, hbytes]
    rfl

/-- A scalar stands for no other string than its text. -/
theorem word?_of_treeOf {targets : List (Nat × Node)} {depth left left' : Nat} {p : Properties}
    {text : List Char} {plain : Bool} {tree : Tree} {s : String}
    (h : treeOf targets depth (.scalar p text plain) left = .ok (tree, left'))
    (hword : tree.word? = some s) : s.toList = text := by
  have hscalar : ∃ t, scalarTree p text plain = .ok t ∧ tree = underTag p t := by
    cases depth <;>
    · rw [treeOf] at h
      obtain ⟨⟨found, left₁⟩, hfollow, h⟩ := bind_eq_ok.1 h
      cases hfollow
      obtain ⟨t, ht, h⟩ := bind_eq_ok.1 h
      cases h
      exact ⟨t, ht, rfl⟩
  obtain ⟨t, ht, rfl⟩ := hscalar
  have hunder : (underTag p t).word? = t.word? := by
    unfold underTag
    split <;> rfl
  rw [hunder] at hword
  cases isLeaf_scalarTree ht <;> cases hword
  exact String.toList_ofList

end OperatorBundle.Yaml

namespace OperatorBundle.Layout

open OperatorBundle.Text OperatorBundle.Yaml

/-- Whether a text is read as a tree. -/
def ReadsAs (text : List Char) (tree : Tree) : Prop :=
  ∃ read, Tree.ofYaml (String.ofList text) = .ok read ∧ read.same tree

variable {indent : Nat} {key value tree read : Tree} {own : String}

theorem moved_none (atStart : Bool) (text : List Char) : moved 0 atStart text = text := by
  induction text generalizing atStart with
  | nil => rfl
  | cons c rest ih =>
    rw [moved, ih, ih]
    cases atStart <;> simp [spaces]

/-- **An entry written anew** is read as its own text is. -/
theorem ofYaml_freshEntryText (hown : (Tree.mapping [(key, value)]).toYaml = .ok own)
    (hplaced : indent = 0 ∧ own.toList.getLast? = some '\n' ∨
      ∀ s ∈ (Tree.mapping [(key, value)]).texts, isMovable s) :
    ∃ piece, freshEntryText? indent key value = some piece ∧
      Tree.ofYaml (String.ofList piece) = Tree.ofYaml own := by
  rcases hplaced with ⟨rfl, hlast⟩ | htexts
  · refine ⟨own.toList, ?_, by rw [String.ofList_toList]⟩
    have hne : own.toList ≠ [] := by
      intro hnil
      rw [hnil] at hlast
      cases hlast
    unfold freshEntryText?
    rw [hown]
    dsimp only
    rw [shift_zero hne (fun d hd => Option.some.inj (hd.symm.trans hlast)), moved_none]
  · refine ⟨_, freshEntryText?_eq hown htexts, ?_⟩
    rw [Tree.ofYaml, Tree.ofYaml, String.toList_ofList, Tree.toList_of_toYaml hown,
      Lexer.tokens_mapping indent (by simp) htexts, Lexer.tokens_nodeText htexts]

/-- The tokens of the own text of a tree, and what they are read as. -/
theorem exists_tokens_of_ofYaml (hown : value.toYaml = .ok own)
    (htexts : ∀ s ∈ value.texts, isMovable s) (hread : Tree.ofYaml own = .ok tree) :
    ∃ tokens root, nodeTokens .root true none value = .ok tokens ∧
      Node.ofTokens tokens = .ok root ∧ root.tree = .ok tree := by
  rw [Tree.ofYaml, Tree.toList_of_toYaml hown, Lexer.tokens_nodeText htexts] at hread
  obtain ⟨tokens, htokens, hread⟩ := bind_eq_ok.1 hread
  obtain ⟨root, hroot, htree⟩ := bind_eq_ok.1 hread
  exact ⟨tokens, root, htokens, hroot, htree⟩

/-- **An item written anew** is read as a sequence of what its tokens with wider lines stand for. -/
theorem ofYaml_freshItemText (indent : Nat) (hown : value.toYaml = .ok own)
    (htexts : ∀ s ∈ value.texts, isMovable s)
    {tokens : List Token} {root : Node}
    (htokens : nodeTokens .root true none value.widened = .ok tokens)
    (hroot : Node.ofTokens tokens = .ok root) :
    ∃ piece, freshItemText? indent value = some piece ∧
      Tree.ofYaml (String.ofList piece) = (Node.sequence .none [root]).tree := by
  refine ⟨_, freshItemText?_eq hown htexts, ?_⟩
  obtain ⟨token, more, hcons, hstart⟩ := exists_cons_nodeTokens rfl true none _ htokens
  have hends := documentEnd_notMem_nodeTokens .root true none _ htokens
  rw [Tree.ofYaml, String.toList_ofList, Lexer.tokens_item indent htexts, htokens]
  show (Node.ofTokens _ >>= fun node => node.tree) = _
  rw [Node.ofTokens_item hcons hstart hends hroot]
  rfl

/-- An item that is not a literal with a number in its header is read back unless it nests too
deep. -/
theorem readsAs_freshItemText_of_not_misplaced (hown : value.toYaml = .ok own)
    (htexts : ∀ s ∈ value.texts, isMovable s) (hread : Tree.ofYaml own = .ok tree)
    (hsame : tree.same value) (hplaced : value.isMisplaced = false) :
    ∃ piece, freshItemText? indent value = some piece ∧
      (ReadsAs piece (.sequence [value]) ↔ tree.nesting < depthLimit) := by
  obtain ⟨tokens, root, htokens, hroot, htree⟩ := exists_tokens_of_ofYaml hown htexts hread
  obtain ⟨piece, hpiece, hitem⟩ := ofYaml_freshItemText indent hown htexts
    (by rw [Tree.widened_of_not_misplaced value hplaced, htokens]) hroot
  refine ⟨piece, hpiece, ?_⟩
  rw [ReadsAs, hitem]
  constructor
  · rintro ⟨read, hread, -⟩
    exact ((tree_item_iff htree).1 hread).1
  · intro hnesting
    exact ⟨_, (tree_item_iff htree).2 ⟨hnesting, rfl⟩, by simp [Tree.same, Tree.sameItems, hsame]⟩

/-- A literal with a number in its header is not read back behind a dash. -/
theorem not_readsAs_freshItemText_of_misplaced (hown : value.toYaml = .ok own)
    (htexts : ∀ s ∈ value.texts, isMovable s) (hread : Tree.ofYaml own = .ok tree)
    (hplaced : value.isMisplaced) :
    ∃ piece, freshItemText? indent value = some piece ∧
      ¬ ReadsAs piece (.sequence [value]) := by
  obtain ⟨hhints, hlines⟩ := Bool.and_eq_true_iff.1 hplaced
  obtain ⟨tag, s, hword, halone, hwide⟩ := exists_nodeTokens_of_hintsIndent true none value hhints
  obtain ⟨tokens, root, htokens, hroot, -⟩ := exists_tokens_of_ofYaml hown htexts hread
  rw [halone, map_eq_ok] at htokens
  obtain ⟨before, hbefore, rfl⟩ := htokens
  obtain ⟨p, -, hother⟩ := exists_scalar_of_ofTokens hbefore hroot
  obtain ⟨piece, hpiece, hitem⟩ := ofYaml_freshItemText indent hown htexts
    (hwide.trans (congrArg (Except.map _) hbefore)) (hother _)
  refine ⟨piece, hpiece, ?_⟩
  rintro ⟨read, hread, hsame⟩
  rw [hitem, tree_item_eq, map_eq_ok] at hread
  obtain ⟨⟨inner, left⟩, hinner, rfl⟩ := hread
  have hinnerWord : inner.word? = some s := by
    rw [← hword]
    exact Tree.word?_of_same inner value (by simpa [Tree.same, Tree.sameItems] using hsame)
  -- the item has wider lines than the value
  have hlength := congrArg List.length (word?_of_treeOf hinner hinnerWord)
  have hlonger : s.toList.length < (widen true s.toList).length :=
    length_lt_widen (by simpa [hword] using hlines)
  omega

/-- **Entries and items written anew are read back**, if every line of a literal in them starts
behind a line feed: an entry always, and an item if and only if it is not a literal with a number in
its header and a line that is not empty, and a sequence around it does not nest too deep for the
reader. An entry that is not moved is its own text. -/
theorem fresh_pieces_read_back (indent : Nat) :
    (∀ key value own, (Tree.mapping [(key, value)]).toYaml = .ok own →
      ReadsAs own.toList (.mapping [(key, value)]) →
      (indent = 0 ∧ own.toList.getLast? = some '\n' ∨
        ∀ s ∈ (Tree.mapping [(key, value)]).texts, isMovable s) →
      ∃ piece, freshEntryText? indent key value = some piece ∧
        ReadsAs piece (.mapping [(key, value)])) ∧
    ∀ value own read, value.toYaml = .ok own → Tree.ofYaml own = .ok read → read.same value →
      (∀ s ∈ value.texts, isMovable s) →
      ∃ piece, freshItemText? indent value = some piece ∧
        (ReadsAs piece (.sequence [value]) ↔
          value.isMisplaced = false ∧ read.nesting < depthLimit) := by
  constructor
  · rintro key value own hown ⟨read, hread, hsame⟩ hplaced
    obtain ⟨piece, hpiece, heq⟩ := ofYaml_freshEntryText hown hplaced
    rw [String.ofList_toList] at hread
    exact ⟨piece, hpiece, read, heq.trans hread, hsame⟩
  · intro value own read hown hread hsame htexts
    cases hplaced : value.isMisplaced with
    | false =>
      simpa using readsAs_freshItemText_of_not_misplaced hown htexts hread hsame hplaced
    | true =>
      simpa using not_readsAs_freshItemText_of_misplaced hown htexts hread hplaced

/-- A text of two lines behind a key and behind a dash. -/
theorem fresh_pieces_read_back_script :
    let script := Tree.text "set -e\n  exit 1\n"
    (∃ piece, freshEntryText? 4 (.text "run") script = some piece ∧
      ReadsAs piece (.mapping [(.text "run", script)])) ∧
    ∃ piece, freshItemText? 4 script = some piece ∧ ReadsAs piece (.sequence [script]) := by
  intro script
  have hentry : (Tree.mapping [(.text "run", script)]).toYaml =
      .ok "run: |\n  set -e\n    exit 1\n" := by decide +kernel
  have hentryRead : Tree.ofYaml (String.ofList "run: |\n  set -e\n    exit 1\n".toList) =
      .ok (.mapping [(.text "run", script)]) := by decide +kernel
  have hitem : script.toYaml = .ok "|\n  set -e\n    exit 1\n" := by decide +kernel
  have hitemRead : Tree.ofYaml "|\n  set -e\n    exit 1\n" = .ok script := by decide +kernel
  refine ⟨(fresh_pieces_read_back 4).1 _ _ _ hentry ⟨_, hentryRead, by decide +kernel⟩
    (.inr (by decide +kernel)), ?_⟩
  obtain ⟨piece, hpiece, hread⟩ := (fresh_pieces_read_back 4).2 script _ _ hitem hitemRead
    (by decide +kernel) (by decide +kernel)
  exact ⟨piece, hpiece, hread.2 (by decide +kernel)⟩

/-- A literal that starts with a space has a number in its header: behind a dash it is read with two
more spaces. -/
theorem item_misread :
    ¬ ∀ indent value own, value.toYaml = .ok own → ReadsAs own.toList value →
      ∃ piece, freshItemText? indent value = some piece ∧
        ReadsAs piece (.sequence [value]) := by
  intro h
  have hown : (Tree.text " a\nb").toYaml = .ok "|2-\n   a\n  b\n" := by decide +kernel
  have hread : Tree.ofYaml (String.ofList "|2-\n   a\n  b\n".toList) = .ok (.text " a\nb") := by
    decide +kernel
  have hitem : freshItemText? 0 (.text " a\nb") = some "- |2-\n     a\n    b\n".toList := by
    decide +kernel
  have hitemRead : Tree.ofYaml (String.ofList "- |2-\n     a\n    b\n".toList) =
      .ok (.sequence [.text "   a\n  b"]) := by decide +kernel
  obtain ⟨piece, hpiece, read, hpieceRead, hsame⟩ :=
    h 0 (.text " a\nb") _ hown ⟨_, hread, by decide +kernel⟩
  obtain rfl := Option.some.inj (hitem.symm.trans hpiece)
  obtain rfl := Except.ok.inj (hitemRead.symm.trans hpieceRead)
  revert hsame
  decide +kernel

end OperatorBundle.Layout
