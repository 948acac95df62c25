import OperatorBundle.Proofs.Layout.Comments
import OperatorBundle.Proofs.Layout.OneChange
import OperatorBundle.Proofs.Locator.Change
import OperatorBundle.Proofs.Manifest.Reload
import OperatorBundle.Proofs.Tree.Identity

/-!
What removing a key does to the comments around it. The comment lines between two entries belong to
the chunk of the upper one, so they go when that entry is removed; and an entry or item around the
removed one that cannot be looked into is written anew, without any comment inside it. All other
comments stay.
-/

namespace OperatorBundle.Layout

open OperatorBundle.Text

/-! ### Sites -/

/-- Where an entry is removed from lines: its own lines, those that go with them, and those that
stay. `fresh` is the text in place of the lines that go, if an entry or item around the removed one
is written anew. -/
structure Site where
  above : List Line
  before : List Line
  own : List Line
  after : List Line
  below : List Line
  fresh : Option (List Char)

namespace Site

/-- All lines of a site. -/
def lines (site : Site) : List Line :=
  site.above ++ site.before ++ site.own ++ site.after ++ site.below

/-- The lines that are not the entry's own. -/
def outside (site : Site) : List Line := site.above ++ site.before ++ site.after ++ site.below

/-- The lines that go with the entry, although they are not its own. -/
def lost (site : Site) : List Line := site.before ++ site.after

/-- The lines in place of those that go. -/
def anew (site : Site) : List Line := Text.lines (site.fresh.getD [])

/-- A site below the line of a key. -/
def underKey (first : Line) (site : Site) : Site := { site with above := first :: site.above }

/-- A site in the lines of an item, with its dash put back. -/
def dash (indent : Nat) (site : Site) : Site :=
  match site.above, site.before with
  | first :: more, _ => { site with above := first.set indent '-' :: more }
  | [], first :: more =>
    { site with
      before := first.set indent '-' :: more, fresh := site.fresh.map (·.set indent '-') }
  | [], [] =>
    { site with
      own := site.own.modifyHead (·.set indent '-'),
      fresh := site.fresh.map (·.set indent '-') }

/-- A site in a node between other lines: as it is in the node if that was looked into, and with all
of the node gone if it is written anew. -/
def around (above below : List Line) (looked fresh : Option (List Char)) (site : Site) : Site :=
  match looked with
  | some _ => { site with above := above ++ site.above, below := site.below ++ below }
  | none => ⟨above, site.above ++ site.before, site.own, site.after ++ site.below, below, fresh⟩

end Site

/-- A tree without the entry under a key of the mapping that segments lead to. -/
def removed (name : String) (path : List Segment) (tree : Tree) : Except Failure Tree :=
  tree.change (Action.remove.onParent (.key name)) .missing path

/-- The site of a removal in the lines of a block, followed down the path to the mapping. On the way
the lines of each mapping are scanned to have its keys. -/
inductive Removal (name : String) : List Line → Tree → List Segment → Site → Prop
  | here {lines : List Line} {indent : Nat} {pre post : List Chunk} {chunk : Chunk}
      {bpre bpost : List Entry} {value : Tree}
      (hcut : cut? .mapping lines = some (indent, pre ++ chunk :: post))
      (hscanned : ScannedAs lines (bpre ++ (.text name, value) :: bpost))
      (hlength : pre.length = bpre.length) :
    Removal name lines (.mapping (bpre ++ (.text name, value) :: bpost)) []
      ⟨lines.takeWhile isBlankOrComment ++ pre.flatMap Chunk.lines, [], chunk.body, chunk.trailer,
        post.flatMap Chunk.lines, none⟩
  | entry {lines : List Line} {indent : Nat} {pre post : List Chunk} {chunk : Chunk}
      {bpre bpost : List Entry} {key : String} {old new : Tree} {rest : List Segment} {site : Site}
      (hcut : cut? .mapping lines = some (indent, pre ++ chunk :: post))
      (hscanned : ScannedAs lines (bpre ++ (.text key, old) :: bpost))
      (hlength : pre.length = bpre.length) (hnew : removed name rest old = .ok new)
      (h : Removal name chunk.nested old rest site) :
    Removal name lines (.mapping (bpre ++ (.text key, old) :: bpost)) (.key key :: rest)
      ((site.underKey chunk.first).around
        (lines.takeWhile isBlankOrComment ++ pre.flatMap Chunk.lines)
        (chunk.trailer ++ post.flatMap Chunk.lines)
        (lookInto? .mapping indent chunk old new) (freshEntryText? indent (.text key) new))
  | item {lines : List Line} {indent : Nat} {pre post : List Chunk} {chunk : Chunk}
      {opre opost : List Tree} {segment : Segment} {old new : Tree} {rest : List Segment}
      {site : Site} (hcut : cut? .sequence lines = some (indent, pre ++ chunk :: post))
      (hpicks : segment.picks opre old) (hlength : pre.length = opre.length)
      (hnew : removed name rest old = .ok new)
      (h : Removal name (blankDash indent chunk) old rest site) :
    Removal name lines (.sequence (opre ++ old :: opost)) (segment :: rest)
      ((site.dash indent).around
        (lines.takeWhile isBlankOrComment ++ pre.flatMap Chunk.lines)
        (chunk.trailer ++ post.flatMap Chunk.lines)
        (lookInto? .sequence indent chunk old new) (freshItemText? indent new))
  | tagged {lines : List Line} {tag : String} {content : Tree} {path : List Segment} {site : Site}
      (h : Removal name lines content path site) :
    Removal name lines (.tagged tag content) path site

/-! ### Trees -/

section Trees

variable {name : String}

theorem removed_tagged (tag : String) (content : Tree) (path : List Segment) :
    removed name path (.tagged tag content) = (removed name path content).map (.tagged tag) := by
  cases path with
  | nil => rfl
  | cons segment rest => rfl

/-- Mappings that differ under one key are not the same. -/
theorem mapping_not_same {pre post : List Entry} {key : String} {old new : Tree}
    (h : Tree.KeysDiffer (pre ++ (.text key, old) :: post)) (hchanged : old.same new = false) :
    (Tree.mapping (pre ++ (.text key, old) :: post)).same
      (.mapping (pre ++ (.text key, new) :: post)) = false := by
  rw [Bool.eq_false_iff]
  intro hsame
  rw [Tree.same, Bool.and_eq_true, Tree.sameEntries_iff] at hsame
  obtain ⟨other, hfind, hvalue⟩ := hsame.2 (.text key, old) (by simp)
  -- the key is looked up in the other mapping, where no entry before has it
  have hpre : ∀ e ∈ pre, (Tree.text key).same e.1 = false :=
    fun e he => (List.pairwise_append.1 h).2.2 e he _ List.mem_cons_self
  rw [List.find?_append, List.find?_eq_none.2 fun e he => by simp [hpre e he], Option.none_or,
    List.find?_cons_of_pos (by simp [Tree.same])] at hfind
  obtain rfl := Option.some.inj hfind
  rw [hchanged] at hvalue
  cases hvalue

theorem sequence_not_same {pre post : List Tree} {old new : Tree}
    (hchanged : old.same new = false) :
    (Tree.sequence (pre ++ old :: post)).same (.sequence (pre ++ new :: post)) = false := by
  rw [Bool.eq_false_iff]
  intro hsame
  rw [Tree.same, Tree.sameItems_iff] at hsame
  -- the items before are as many on both sides
  have hrest := List.forall₂_drop_append _ _ _ hsame
  rw [List.drop_left] at hrest
  have hvalue := (List.forall₂_cons.1 hrest).1
  rw [hchanged] at hvalue
  cases hvalue

theorem removed_here {pre post : List Entry} {value : Tree}
    (h : Tree.KeysDiffer (pre ++ (.text name, value) :: post)) :
    removed name [] (.mapping (pre ++ (.text name, value) :: post)) =
      .ok (.mapping (pre ++ post)) :=
  congrArg (fun entries => Except.ok (Tree.mapping entries))
    (Tree.erase_append (Tree.not_isName_of_keysDiffer h))

theorem removed_entry {pre post : List Entry} {key : String} {old new : Tree} {rest : List Segment}
    (h : Tree.KeysDiffer (pre ++ (.text key, old) :: post))
    (hnew : removed name rest old = .ok new) :
    removed name (.key key :: rest) (.mapping (pre ++ (.text key, old) :: post)) =
      .ok (.mapping (pre ++ (.text key, new) :: post)) := by
  have hpre : ∀ e ∈ pre, e.1.isName key = false :=
    fun e he => Tree.not_isName_of_keysDiffer h e (List.mem_append_left _ he)
  unfold removed at hnew ⊢
  rw [Tree.change, Tree.changeChild_mapping old post hpre, hnew]
  rfl

theorem removed_item {segment : Segment} {pre post : List Tree} {old new : Tree}
    {rest : List Segment} (hpicks : segment.picks pre old)
    (hnew : removed name rest old = .ok new) :
    removed name (segment :: rest) (.sequence (pre ++ old :: post)) =
      .ok (.sequence (pre ++ new :: post)) := by
  unfold removed at hnew ⊢
  rw [Tree.change, Tree.changeChild_sequence post hpicks, hnew]
  rfl

/-- A removal changes the tree. -/
theorem Removal.not_same {lines : List Line} {old new : Tree} {path : List Segment} {site : Site}
    (h : Removal name lines old path site) (hold : old.uniqueKeys)
    (hnew : removed name path old = .ok new) : old.same new = false := by
  induction h generalizing new with
  | here hcut hscanned hlength =>
    rw [removed_here (Tree.uniqueKeys_mapping.1 hold).1] at hnew
    obtain rfl := Except.ok.inj hnew
    simp [Tree.same]
  | entry hcut hscanned hlength hnew' h ih =>
    obtain ⟨hdiffer, hunique⟩ := Tree.uniqueKeys_mapping.1 hold
    rw [removed_entry hdiffer hnew'] at hnew
    obtain rfl := Except.ok.inj hnew
    exact mapping_not_same hdiffer
      (ih (hunique _ (List.mem_append_right _ List.mem_cons_self)).2 hnew')
  | item hcut hpicks hlength hnew' h ih =>
    rw [removed_item hpicks hnew'] at hnew
    obtain rfl := Except.ok.inj hnew
    exact sequence_not_same (ih (Tree.uniqueKeys_sequence.1 hold _ (by simp)) hnew')
  | @tagged lines tag content path site h ih =>
    rw [removed_tagged] at hnew
    obtain ⟨changed, hcontent, rfl⟩ := map_eq_ok.1 hnew
    simp [Tree.same, ih (Tree.uniqueKeys_tagged ▸ hold) hcontent]

end Trees

/-! ### Lines -/

namespace Site

theorem lines_dash (indent : Nat) {site : Site} (hown : site.own ≠ []) :
    (site.dash indent).lines = site.lines.modifyHead (·.set indent '-') ∧
      (site.dash indent).own ≠ [] := by
  obtain ⟨above, before, own, after, below, fresh⟩ := site
  cases above with
  | cons first more => exact ⟨rfl, hown⟩
  | nil =>
    cases before with
    | cons first more => exact ⟨rfl, hown⟩
    | nil =>
      cases own with
      | cons first more => exact ⟨rfl, List.cons_ne_nil _ _⟩
      | nil => exact absurd rfl hown

theorem dash_of_above_nil (indent : Nat) {site : Site} (h : site.above = []) :
    (site.dash indent).above = [] ∧
      (site.dash indent).fresh = site.fresh.map (·.set indent '-') ∧
      (site.dash indent).below = site.below := by
  obtain ⟨above, before, own, after, below, fresh⟩ := site
  obtain rfl : above = [] := h
  cases before <;> exact ⟨rfl, rfl, rfl⟩

theorem lines_around (above below : List Line) (looked fresh : Option (List Char)) (site : Site) :
    (site.around above below looked fresh).lines = above ++ (site.lines ++ below) := by
  unfold around
  split <;> simp [lines]

theorem own_around (above below : List Line) (looked fresh : Option (List Char)) (site : Site) :
    (site.around above below looked fresh).own = site.own := by
  unfold around
  split <;> rfl

end Site

/-- The lines of a collection, around the node of one chunk. -/
theorem lines_around_of_cut? {kind : BlockKind} {lines : List Line} {indent : Nat}
    {pre post : List Chunk} {chunk : Chunk}
    (h : cut? kind lines = some (indent, pre ++ chunk :: post)) :
    lines.takeWhile isBlankOrComment ++ pre.flatMap Chunk.lines ++
      (chunk.body ++ (chunk.trailer ++ post.flatMap Chunk.lines)) = lines := by
  have hlines := lines_of_cut? h
  rw [List.flatMap_append, List.flatMap_cons] at hlines
  simpa [Chunk.lines] using hlines

/-- A site has all lines of the block, in order. -/
theorem Removal.lines_eq {name : String} {lines : List Line} {tree : Tree} {path : List Segment}
    {site : Site} (h : Removal name lines tree path site) :
    site.lines = lines ∧ site.own ≠ [] := by
  induction h with
  | here hcut hscanned hlength =>
    constructor
    · have hlines := lines_around_of_cut? hcut
      simpa only [Site.lines, List.append_nil, List.append_assoc] using hlines
    · exact List.cons_ne_nil _ _
  | @entry _ _ _ _ chunk _ _ _ _ _ _ site hcut hscanned hlength hnew h ih =>
    have hbody : (site.underKey chunk.first).lines = chunk.body := by
      rw [Chunk.body, ← ih.1]
      rfl
    rw [Site.lines_around, Site.own_around, hbody]
    exact ⟨lines_around_of_cut? hcut, ih.2⟩
  | @item _ indent _ _ chunk _ _ _ _ _ _ site hcut hpicks hlength hnew h ih =>
    obtain ⟨hlines, hown⟩ := Site.lines_dash indent ih.2
    have hrole := starts_of_chunksAfter? (cut?_eq_some hcut) chunk (by simp)
    obtain ⟨more, hmore⟩ := exists_dash hrole
    have hbody : (site.dash indent).lines = chunk.body := by
      rw [hlines, ih.1, blankDash, List.modifyHead_cons, hmore, set_spaces, set_spaces, ← hmore]
      rfl
    rw [Site.lines_around, Site.own_around, hbody]
    exact ⟨lines_around_of_cut? hcut, hown⟩
  | tagged h ih => exact ih

/-! ### Texts -/

/-- The text of a block from which an entry was removed. What is shown of the lines below the site
has their comments; it is those lines, but for a dash that had its place on the removed entry. -/
structure Shows (lines : List Line) (site : Site) (shown : List Line) (out : List Char) : Prop where
  text : onOwnLines (site.above ++ (site.fresh.toList ++ shown)) = out
  isLine : ∀ line ∈ site.above ++ shown, IsLine line
  comments : comments shown = comments site.below
  /-- It begins at least as far to the right as the lines of the block. -/
  begins : ∃ part parts, site.above ++ (site.fresh.toList ++ shown) = part :: parts ∧
    ∀ first ∈ lines.head?, ∀ i < indentation first, part[i]? = some ' '
  /-- It begins with no comment if it begins below the site. -/
  uncommented : site.above = [] → site.fresh = none →
    ∀ first ∈ shown.head?, Layout.comments [first] = []

namespace Shows

variable {lines shown : List Line} {site : Site} {out : List Char}

theorem comments_eq (h : Shows lines site shown out) :
    Layout.comments (Text.lines out) =
      Layout.comments site.above ++ (Layout.comments site.anew ++ Layout.comments site.below) := by
  obtain ⟨habove, hshown⟩ := List.forall_mem_append.1 h.isLine
  rw [← h.text, comments_onOwnLines, List.flatMap_append, List.flatMap_append,
    comments_of_isLine habove, comments_of_isLine hshown, h.comments]
  congr 2
  cases hfresh : site.fresh with
  | none => simp [Site.anew, hfresh]
  | some text => simp [Site.anew, hfresh]

/-- Below the line of a key. -/
theorem underKey {first : Line} {nested : List Line} (h : Shows nested site shown out)
    (hfirst : IsLine first) (hended : first.getLast? = some '\n') :
    Shows (first :: nested) (site.underKey first) shown (first ++ out) := by
  refine ⟨?_, List.forall_mem_cons.2 ⟨hfirst, h.isLine⟩, h.comments, ⟨first, _, rfl, ?_⟩, ?_⟩
  · rw [Site.underKey, List.cons_append, onOwnLines_cons, h.text, joined_of_ended hended]
  · rintro _ ⟨⟩ i hi
    exact getElem?_of_lt_indentation hi
  · intro hnil
    cases hnil

/-- With the dash of an item put back. -/
theorem dash {indent : Nat} {more : List Char} {nested : List Line}
    (h : Shows ((spaces indent ++ ' ' :: more) :: nested) site shown out) :
    ∃ shown', Shows ((spaces indent ++ '-' :: more) :: nested) (site.dash indent) shown'
      (out.set indent '-') := by
  obtain ⟨part, parts, hpart, hspaces⟩ := h.begins
  have hspaces := hspaces _ rfl
  have hlt := lt_indentation_blanked indent more
  have hat : part[indent]? = some ' ' := hspaces indent hlt
  have hkeep : ∀ i < indent, (part.set indent '-')[i]? = some ' ' := by
    intro i hi
    rw [List.getElem?_set_ne (by omega), hspaces i (by omega)]
  have hbegins : ∀ first ∈ ((spaces indent ++ '-' :: more) :: nested).head?,
      ∀ i < indentation first, (part.set indent '-')[i]? = some ' ' := by
    rintro _ ⟨⟩ i hi
    rw [indentation_dashed] at hi
    exact hkeep i hi
  obtain ⟨above, before, own, after, below, fresh⟩ := site
  obtain ⟨htext, hisLine, hcomments, -, huncommented⟩ := h
  cases above with
  | cons first rest =>
    obtain rfl : first = part := (List.cons.inj hpart).1
    obtain ⟨hfirst, hrest⟩ := List.forall_mem_cons.1 hisLine
    refine ⟨shown, ?_, List.forall_mem_cons.2 ⟨hfirst.set indent (by decide), hrest⟩, hcomments,
      ⟨_, _, rfl, hbegins⟩, fun hnil => by cases hnil⟩
    rw [← htext]
    simp only [Site.dash, List.cons_append, onOwnLines_cons, joined_dash hat]
  | nil =>
    have hnil : (Site.mk [] before own after below fresh).above = [] := rfl
    obtain ⟨habove, hfresh, hbelow⟩ := Site.dash_of_above_nil indent hnil
    cases fresh with
    | some text =>
      obtain rfl : text = part := (List.cons.inj hpart).1
      refine ⟨shown, ?_, by rwa [habove], by rwa [hbelow],
        ⟨text.set indent '-', shown, ?_, hbegins⟩, ?_⟩
      · rw [habove, hfresh, ← htext]
        simp only [Option.map_some, Option.toList_some, List.nil_append, List.cons_append,
          onOwnLines_cons, joined_dash hat]
      · rw [habove, hfresh]
        rfl
      · rw [hfresh]
        rintro - ⟨⟩
    | none =>
      -- the dash moves to the first line below the site, which is no comment before or after
      obtain rfl : shown = part :: parts := hpart
      have hindent : ∀ i ≤ indent, part[i]? = some ' ' := fun i hi => hspaces i (by omega)
      obtain ⟨more', rfl⟩ := exists_of_getElem?_spaces hindent
      have hcomment := huncommented rfl rfl _ rfl
      obtain ⟨hfirst, hrest⟩ := List.forall_mem_cons.1 hisLine
      have hline := hfirst.set indent (show '-' ≠ '\n' by decide)
      rw [set_spaces] at hline hbegins
      refine ⟨(spaces indent ++ '-' :: more') :: parts, ?_, ?_, ?_, ⟨_, parts, ?_, hbegins⟩, ?_⟩
      · rw [habove, hfresh, ← htext]
        simp only [Option.map_none, Option.toList_none, List.nil_append, onOwnLines_cons,
          ← joined_dash hat, set_spaces]
      · rw [habove]
        exact List.forall_mem_cons.2 ⟨hline, hrest⟩
      · rw [hbelow, ← hcomments, comments_cons, comments_dashed, comments_cons _ parts, hcomment]
      · rw [habove, hfresh]
        rfl
      · rintro - - _ ⟨⟩
        exact comments_dashed indent more'

/-- Between other lines of a collection, where the node was looked into. -/
theorem around {body above below : List Line} {node : List Char} (h : Shows body site shown node)
    (looked : List Char) (fresh : Option (List Char)) (hlines : above ++ (body ++ below) = lines)
    (hbody : body ≠ []) (habove : ∀ line ∈ above, IsLine line)
    (hbelow : ∀ line ∈ below, IsLine line) (hout : onOwnLines (above ++ node :: below) = out) :
    Shows lines (site.around above below (some looked) fresh) (shown ++ below) out := by
  obtain ⟨part, parts, hparts, hspaces⟩ := h.begins
  have hall : above ++ site.above ++ (site.fresh.toList ++ (shown ++ below)) =
      above ++ part :: (parts ++ below) := by
    rw [← List.cons_append, ← hparts]
    simp only [List.append_assoc]
  obtain ⟨hsite, hshown⟩ := List.forall_mem_append.1 h.isLine
  constructor
  case text =>
    rw [← hout, ← h.text, Site.around, hall, hparts, ← List.cons_append]
    exact (onOwnLines_append_congr (onOwnLines_group _ _)).symm
  case isLine =>
    exact List.forall_mem_append.2 ⟨List.forall_mem_append.2 ⟨habove, hsite⟩,
      List.forall_mem_append.2 ⟨hshown, hbelow⟩⟩
  case comments =>
    rw [comments_append, h.comments]
    exact (comments_append site.below below).symm
  case begins =>
    cases above with
    | nil =>
      refine ⟨part, parts ++ below, hall, ?_⟩
      obtain ⟨first, nested, rfl⟩ := List.exists_cons_of_ne_nil hbody
      rw [← hlines]
      exact hspaces
    | cons first rest =>
      refine ⟨first, _, hall, ?_⟩
      rw [← hlines]
      rintro _ ⟨⟩ i hi
      exact getElem?_of_lt_indentation hi
  case uncommented =>
    intro hnil hfresh
    have hnil : site.above = [] := (List.append_eq_nil_iff.1 hnil).2
    have hfresh : site.fresh = none := hfresh
    obtain rfl : shown = part :: parts := by simpa [hnil, hfresh] using hparts
    exact h.uncommented hnil hfresh

/-- Between other lines of a collection, where the node was written anew. -/
theorem rewritten {indent : Nat} {chunk : Chunk} {above below : List Line} {text : List Char}
    (site : Site) (hlines : above ++ (chunk.body ++ below) = lines)
    (hindent : indentation chunk.first = indent) (habove : ∀ line ∈ above, IsLine line)
    (hbelow : ∀ line ∈ below, IsLine line) (htext : StartsAt indent text)
    (hout : onOwnLines (above ++ text :: below) = out) :
    Shows lines (site.around above below none (some text)) below out := by
  refine ⟨hout, List.forall_mem_append.2 ⟨habove, hbelow⟩, rfl, ?_, by rintro - ⟨⟩⟩
  cases above with
  | nil =>
    refine ⟨text, below, rfl, ?_⟩
    rw [← hlines]
    rintro _ ⟨⟩ i hi
    exact htext.getElem? (hindent ▸ hi)
  | cons first rest =>
    refine ⟨first, _, rfl, ?_⟩
    rw [← hlines]
    rintro _ ⟨⟩ i hi
    exact getElem?_of_lt_indentation hi

end Shows

/-! ### Removals -/

section Removals

variable {name : String}

/-- The lines around the node of a chunk are lines. -/
theorem isLine_around {kind : BlockKind} {lines : List Line} {indent : Nat} {pre post : List Chunk}
    {chunk : Chunk} (hlines : AreLines lines)
    (h : cut? kind lines = some (indent, pre ++ chunk :: post)) :
    (∀ line ∈ lines.takeWhile isBlankOrComment ++ pre.flatMap Chunk.lines, IsLine line) ∧
      ∀ line ∈ chunk.trailer ++ post.flatMap Chunk.lines, IsLine line := by
  have hall := hlines.isLine
  rw [← lines_around_of_cut? h] at hall
  obtain ⟨habove, hrest⟩ := List.forall_mem_append.1 hall
  exact ⟨habove, (List.forall_mem_append.1 hrest).2⟩

theorem shows_here {lines : List Line} {indent : Nat} {pre post : List Chunk} {chunk : Chunk}
    {out : List Char} (hlines : AreLines lines)
    (hcut : cut? .mapping lines = some (indent, pre ++ chunk :: post)) (hrest : pre ++ post ≠ [])
    (hout : onOwnLines (lines.takeWhile isBlankOrComment ++ (pre ++ post).flatMap Chunk.lines) =
      out) :
    Shows lines ⟨lines.takeWhile isBlankOrComment ++ pre.flatMap Chunk.lines, [], chunk.body,
      chunk.trailer, post.flatMap Chunk.lines, none⟩ (post.flatMap Chunk.lines) out := by
  obtain ⟨habove, hbelow⟩ := isLine_around hlines hcut
  have hall := lines_around_of_cut? hcut
  have hroles := starts_of_chunksAfter? (cut?_eq_some hcut)
  -- with nothing above the chunk, the text begins with the first line of the next one
  have hnext : lines.takeWhile isBlankOrComment ++ pre.flatMap Chunk.lines = [] →
      ∃ next ∈ pre ++ chunk :: post, ∃ more, post.flatMap Chunk.lines = next.first :: more := by
    intro hnil
    obtain ⟨-, hpre⟩ := List.append_eq_nil_iff.1 hnil
    cases pre with
    | cons first pre => simp [Chunk.lines, Chunk.body] at hpre
    | nil =>
      obtain ⟨next, post, rfl⟩ := List.exists_cons_of_ne_nil hrest
      exact ⟨next, by simp, _, rfl⟩
  rw [List.flatMap_append, ← List.append_assoc] at hout
  refine ⟨hout, List.forall_mem_append.2 ⟨habove, (List.forall_mem_append.1 hbelow).2⟩, rfl, ?_, ?_⟩
  · cases habove' : lines.takeWhile isBlankOrComment ++ pre.flatMap Chunk.lines with
    | nil =>
      obtain ⟨next, hmem, more, hshown⟩ := hnext habove'
      refine ⟨next.first, more, hshown, ?_⟩
      rw [← hall, habove']
      rintro _ ⟨⟩ i hi
      refine getElem?_of_lt_indentation ?_
      rwa [(lineRole_eq_starts (hroles next hmem)).2.1,
        ← (lineRole_eq_starts (hroles chunk (by simp))).2.1]
    | cons first rest =>
      refine ⟨first, _, rfl, ?_⟩
      rw [← hall, habove']
      rintro _ ⟨⟩ i hi
      exact getElem?_of_lt_indentation hi
  · intro hnil _ first hfirst
    obtain ⟨next, hmem, more, hshown⟩ := hnext hnil
    rw [hshown] at hfirst
    obtain rfl := Option.some.inj hfirst
    exact comments_of_starts (hroles next hmem)

/-- The node of an entry that was looked into. -/
theorem shows_underKey {indent : Nat} {chunk : Chunk} {old new : Tree} {site : Site}
    {node : List Char} (hlines : AreLines chunk.body)
    (hchanged : old.same new = false)
    (ih : ∀ text, renderBlock? chunk.nested old new = some text →
      ∃ shown, Shows chunk.nested site shown text)
    (h : lookInto? .mapping indent chunk old new = some node) :
    ∃ shown, Shows chunk.body (site.underKey chunk.first) shown node := by
  obtain ⟨-, text, htext, rfl⟩ := lookInto?_mapping_eq_some.1 h
  obtain ⟨shown, hshows⟩ := ih text htext
  exact ⟨shown, hshows.underKey (hlines.isLine _ List.mem_cons_self)
    (getLast?_first hlines (ne_nil_of_renderBlock? hchanged htext))⟩

/-- The node of an item that was looked into. -/
theorem shows_dash {indent : Nat} {chunk : Chunk} {old new : Tree} {site : Site}
    {node : List Char} (hrole : lineRole .sequence indent chunk.first = .starts)
    (ih : ∀ text, renderBlock? (blankDash indent chunk) old new = some text →
      ∃ shown, Shows (blankDash indent chunk) site shown text)
    (h : lookInto? .sequence indent chunk old new = some node) :
    ∃ shown, Shows chunk.body (site.dash indent) shown node := by
  obtain ⟨text, htext, -, rfl⟩ := lookInto?_sequence_eq_some.1 h
  obtain ⟨shown, hshows⟩ := ih text htext
  obtain ⟨more, hmore⟩ := exists_dash hrole
  rw [blankDash, hmore, set_spaces] at hshows
  rw [Chunk.body, hmore]
  exact hshows.dash

/-- A node with a site in it, between the other lines of its collection. -/
theorem shows_around {kind : BlockKind} {lines : List Line} {indent : Nat} {pre post : List Chunk}
    {chunk : Chunk} {old new : Tree} {site : Site} {fresh : Option (List Char)}
    {node out : List Char} (hlines : AreLines lines)
    (hcut : cut? kind lines = some (indent, pre ++ chunk :: post))
    (hchanged : old.same new = false)
    (hfresh : ∀ text, fresh = some text → StartsAt indent text)
    (hlook : ∀ node, lookInto? kind indent chunk old new = some node →
      ∃ shown, Shows chunk.body site shown node)
    (hnode : renderNode? kind indent chunk old new fresh = some node)
    (hout : onOwnLines (lines.takeWhile isBlankOrComment ++ (pre.flatMap Chunk.lines ++
      node :: (chunk.trailer ++ post.flatMap Chunk.lines))) = out) :
    ∃ shown, Shows lines
      (site.around (lines.takeWhile isBlankOrComment ++ pre.flatMap Chunk.lines)
        (chunk.trailer ++ post.flatMap Chunk.lines) (lookInto? kind indent chunk old new) fresh)
      shown out := by
  obtain ⟨habove, hbelow⟩ := isLine_around hlines hcut
  have hall := lines_around_of_cut? hcut
  rw [← List.append_assoc] at hout
  rw [renderNode?, if_neg (by simp [hchanged])] at hnode
  cases hlooked : lookInto? kind indent chunk old new with
  | some text =>
    obtain rfl : text = node := by simpa [hlooked] using hnode
    obtain ⟨shown, hshows⟩ := hlook text hlooked
    exact ⟨_, hshows.around text fresh hall (List.cons_ne_nil _ _) habove hbelow hout⟩
  | none =>
    obtain rfl : fresh = some node := by simpa [hlooked] using hnode
    have hrole := starts_of_chunksAfter? (cut?_eq_some hcut) chunk (by simp)
    exact ⟨_, .rewritten site hall (lineRole_eq_starts hrole).2.1 habove hbelow (hfresh node rfl)
      hout⟩

/-- **The text after a removal** shows the lines around its site. -/
theorem Removal.shows {lines : List Line} {old new : Tree} {path : List Segment} {site : Site}
    {out : List Char} (h : Removal name lines old path site) (hlines : AreLines lines)
    (hold : old.uniqueKeys) (hnew : removed name path old = .ok new)
    (hout : renderBlock? lines old new = some out) : ∃ shown, Shows lines site shown out := by
  have hchanged := h.not_same hold hnew
  induction h generalizing new out with
  | here hcut hscanned hlength =>
    rw [removed_here (Tree.uniqueKeys_mapping.1 hold).1] at hnew
    obtain rfl := Except.ok.inj hnew
    obtain ⟨hrest, hout⟩ := renderBlock?_of_removed hlines hold hcut hscanned hlength hout
    exact ⟨_, shows_here hlines hcut hrest hout⟩
  | @entry lines indent pre post chunk _ _ key old _ _ site hcut hscanned hlength hnew' h ih =>
    obtain ⟨hdiffer, hunique⟩ := Tree.uniqueKeys_mapping.1 hold
    have hvalue := (hunique _ (List.mem_append_right _ List.mem_cons_self)).2
    rw [removed_entry hdiffer hnew'] at hnew
    obtain rfl := Except.ok.inj hnew
    obtain ⟨node, hnode, hout⟩ :=
      renderBlock?_of_changed_entry hlines hold hcut hscanned hlength hchanged hout
    have hchunk : AreLines chunk.lines := hlines.of_cut? hcut chunk (by simp)
    have hchanged' := h.not_same hvalue hnew'
    refine shows_around hlines hcut hchanged' (fun text htext => startsAt_freshEntryText htext)
      (fun node hlook => ?_) hnode hout
    exact shows_underKey (hchunk.of_isInfix chunk.body_isInfix) hchanged'
      (fun text htext =>
        ih (hchunk.of_isInfix chunk.nested_isInfix) hvalue hnew' htext hchanged') hlook
  | @item lines indent pre post chunk _ _ _ old _ _ site hcut hpicks hlength hnew' h ih =>
    have hitems := Tree.uniqueKeys_sequence.1 hold
    have hvalue := hitems _ (List.mem_append_right _ List.mem_cons_self)
    rw [removed_item hpicks hnew'] at hnew
    obtain rfl := Except.ok.inj hnew
    obtain ⟨node, hnode, hout⟩ := renderBlock?_of_changed_item hlines
      (fun t ht => hitems t (by simp only [List.mem_append, List.mem_cons] at ht ⊢; tauto))
      hcut hlength hchanged hout
    have hchunk : AreLines chunk.lines := hlines.of_cut? hcut chunk (by simp)
    have hrole := starts_of_chunksAfter? (cut?_eq_some hcut) chunk (by simp)
    have hchanged' := h.not_same hvalue hnew'
    refine shows_around hlines hcut hchanged' (fun text htext => startsAt_freshItemText htext)
      (fun node hlook => ?_) hnode hout
    have hdash := areLines_blankDash (hchunk.of_isInfix chunk.body_isInfix) hrole
    exact shows_dash hrole (fun text htext => ih hdash hvalue hnew' htext hchanged') hlook
  | @tagged lines tag content path site h ih =>
    rw [removed_tagged] at hnew
    obtain ⟨changed, -, rfl⟩ := map_eq_ok.1 hnew
    cases rendered hout with
    | unchanged hsame => rw [hsame] at hchanged; cases hchanged

end Removals

/-! ### Manifests -/

theorem removed_of_act {target : Locator} {name : String} {old new : Tree}
    (h : (Operation.remove (target.key name)).act old = .ok new) :
    removed name target.segments old = .ok new := by
  have hsplit : (target.key name).splitLast? = some (target.segments, .key name) := by
    simp [Locator.splitLast?, Locator.key, Locator.below]
  unfold Operation.act at h
  rw [show (Operation.remove (target.key name)).target = target.key name from rfl, hsplit] at h
  exact h

/-- **When removing a key keeps the comments around it.** The comments outside the removed entry's
own lines are all in the returned text, in order, if and only if those on the lines that go with the
entry are in what is written anew. Where every entry and item around the removed one is looked into,
nothing is written anew, and the lines that go with the entry are those that trail it. -/
theorem comments_kept_iff {text out : String} {manifest : Manifest} {root : Tree}
    {target : Locator} {name : String} {site : Site} (hread : Manifest.ofYaml text = .ok manifest)
    (hact : (Operation.remove (target.key name)).act manifest.root = .ok root)
    (hout : { manifest with root }.preserved? = some out)
    (hsite : Removal name (lines text.toList) manifest.root target.segments site) :
    site.lines = lines text.toList ∧
      ((comments site.outside).Sublist ((lines out.toList).map content) ↔
        (comments site.lost).Sublist (comments site.anew)) := by
  refine ⟨hsite.lines_eq.1, ?_⟩
  obtain ⟨tree, htree, rfl⟩ := Manifest.ofYaml_eq_ok.1 hread
  have hrender : renderLayout? text tree root = some out :=
    (Option.filter_eq_some_iff.1 hout).1
  obtain ⟨written, hwritten, rfl⟩ := Option.map_eq_some_iff.1 hrender
  obtain ⟨shown, hshows⟩ := hsite.shows (areLines_lines _) (Tree.uniqueKeys_of_ofYaml htree)
    (removed_of_act hact) hwritten
  rw [comments_sublist_iff, String.toList_ofList, hshows.comments_eq, Site.outside, Site.lost,
    comments_append, comments_append, comments_append, comments_append, List.append_assoc,
    List.append_assoc, ← List.append_assoc (comments site.before),
    List.append_sublist_append_left, List.append_sublist_append_right]

/-! ### Two entries with a comment between them -/

/-- A text with a comment that stands above the second entry and trails the first. -/
def commented : String := "a: 1\n# about b\nb: 2\n"

/-- Its tree. -/
def commentedTree : Tree := .mapping [(.text "a", .int 1), (.text "b", .int 2)]

theorem ofYaml_commented :
    Manifest.ofYaml commented = .ok ⟨commentedTree, some ⟨commented, commentedTree⟩⟩ := by
  have hread : Tree.ofYaml commented = .ok commentedTree := by decide +kernel
  rw [Manifest.ofYaml, hread]
  rfl

theorem cut?_commented :
    cut? .mapping (lines commented.toList) =
      some (0, [⟨"a: 1\n".toList, [], ["# about b\n".toList]⟩, ⟨"b: 2\n".toList, [], []⟩]) := by
  decide +kernel

theorem scannedAs_commented :
    ScannedAs (lines commented.toList) [(.text "a", .int 1), (.text "b", .int 2)] := by
  have hkeys : scannedKeys? (lines commented.toList) = some [.text "a", .text "b"] := by
    decide +kernel
  exact ⟨_, hkeys, .cons rfl (.cons rfl .nil)⟩

/-- The site of the first entry: the comment goes with it. -/
theorem removal_commented_first :
    Removal "a" (lines commented.toList) commentedTree []
      ⟨[], [], ["a: 1\n".toList], ["# about b\n".toList], ["b: 2\n".toList], none⟩ :=
  @Removal.here "a" _ _ [] _ _ [] _ _ cut?_commented scannedAs_commented rfl

/-- The site of the second entry: the comment stands above it. -/
theorem removal_commented_second :
    Removal "b" (lines commented.toList) commentedTree []
      ⟨["a: 1\n".toList, "# about b\n".toList], [], ["b: 2\n".toList], [], [], none⟩ :=
  @Removal.here "b" _ _ [_] _ _ [_] _ _ cut?_commented scannedAs_commented rfl

/-- When the second entry is removed, the comment stays. -/
theorem comments_kept_iff_commented :
    let site : Site :=
      ⟨["a: 1\n".toList, "# about b\n".toList], [], ["b: 2\n".toList], [], [], none⟩
    site.lines = lines commented.toList ∧
      ((comments site.outside).Sublist ((lines "a: 1\n# about b\n".toList).map content) ↔
        (comments site.lost).Sublist (comments site.anew)) :=
  @comments_kept_iff commented "a: 1\n# about b\n" _ (.mapping [(.text "a", .int 1)]) .root "b" _
    ofYaml_commented (by decide +kernel) (by decide +kernel) removal_commented_second

/-- When the first entry is removed, it does not. -/
theorem comment_lost :
    ¬ ∀ (text out : String) (manifest : Manifest) (root : Tree) (target : Locator) (name : String)
      (site : Site), Manifest.ofYaml text = .ok manifest →
      (Operation.remove (target.key name)).act manifest.root = .ok root →
      { manifest with root }.preserved? = some out →
      Removal name (lines text.toList) manifest.root target.segments site →
      (comments site.outside).Sublist ((lines out.toList).map content) := by
  intro h
  have hkept := h commented "b: 2\n" _ (.mapping [(.text "b", .int 2)]) .root "a" _ ofYaml_commented
    (by decide +kernel) (by decide +kernel) removal_commented_first
  revert hkept
  decide +kernel

end OperatorBundle.Layout
