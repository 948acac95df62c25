import OperatorBundle.Proofs.Locator.Change

/-!
What a change leaves alone. Two paths part at a key if they are the same up to there; what stands at
the end of one of them does not depend on a change at the end of the other. This holds through
conditions too, as long as the change does not touch the field that a condition on the way looks at,
or leaves it accepted.
-/

namespace OperatorBundle

/-- What stands at a key of the node that a path leads to: nothing, since there is no such node or
it is no mapping; nothing yet; or a value. -/
inductive Spot
  | nowhere
  | unkeyed
  | free
  | holds (value : Tree)

/-- The value that stands at a spot. -/
def Spot.value? : Spot → Option Tree
  | .holds value => some value
  | _ => none

/-- Whether two paths part at a key. -/
def parts : List Segment → List Segment → Bool
  | .key a :: p, .key b :: q => a ≠ b || parts p q
  | s :: p, t :: q => s = t && parts p q
  | _, _ => false

@[simp] theorem parts_nil_left (q : List Segment) : parts [] q = false := by
  cases q with
  | nil => rfl
  | cons t q => cases t <;> rfl

@[simp] theorem parts_nil_right (p : List Segment) : parts p [] = false := by
  cases p with
  | nil => rfl
  | cons s p => cases s <;> rfl

theorem parts_cons {s t : Segment} {p q : List Segment} :
    parts (s :: p) (t :: q) ↔
      (∃ a b, s = .key a ∧ t = .key b ∧ a ≠ b) ∨ s = t ∧ parts p q := by
  -- only two keys may differ
  have hothers (h : ∀ a b, s = .key a → t ≠ .key b) :
      (decide (s = t) && parts p q) = true ↔
        (∃ a b, s = .key a ∧ t = .key b ∧ a ≠ b) ∨ s = t ∧ parts p q := by
    rw [Bool.and_eq_true, decide_eq_true_eq]
    constructor
    · exact .inr
    · rintro (⟨a, b, hs, ht, -⟩ | hsame)
      · exact absurd ht (h a b hs)
      · exact hsame
  cases s with
  | key a =>
    cases t with
    | key b =>
      show (decide (a ≠ b) || parts p q) = true ↔ _
      by_cases hkeys : a = b
      · simp [hkeys]
      · simp [hkeys]
    | index | find => exact hothers fun _ _ _ => by simp
  | index | find => cases t <;> exact hothers fun _ _ hs => by cases hs

theorem parts_comm (p q : List Segment) : parts p q = parts q p := by
  induction p generalizing q with
  | nil => rw [parts_nil_left, parts_nil_right]
  | cons s p ih =>
    cases q with
    | nil => rw [parts_nil_left, parts_nil_right]
    | cons t q =>
      rw [Bool.eq_iff_iff, parts_cons, parts_cons, ih q, eq_comm]
      refine or_congr_left ⟨?_, ?_⟩
      · rintro ⟨a, b, hs, ht, hne⟩
        exact ⟨b, a, ht, hs, hne.symm⟩
      · rintro ⟨a, b, hs, ht, hne⟩
        exact ⟨b, a, ht, hs, hne.symm⟩

/-- Paths that part do so however they go on. -/
theorem parts_append {p q : List Segment} (h : parts p q) (rest : List Segment) :
    parts p (q ++ rest) := by
  induction p generalizing q with
  | nil => simp at h
  | cons s p ih =>
    cases q with
    | nil => simp at h
    | cons t q =>
      rw [parts_cons] at h
      rw [List.cons_append, parts_cons]
      exact h.imp_right fun ⟨hsame, hrest⟩ => ⟨hsame, ih hrest⟩

/-- Where two paths part there is a key. -/
theorem exists_of_parts {p q : List Segment} (h : parts p q) :
    ∃ first name below, p = first ++ .key name :: below ∧ parts (first ++ [.key name]) q := by
  induction p generalizing q with
  | nil => simp at h
  | cons s p ih =>
    cases q with
    | nil => simp at h
    | cons t q =>
      rcases parts_cons.1 h with ⟨a, b, rfl, rfl, hne⟩ | ⟨rfl, hrest⟩
      · exact ⟨[], a, p, rfl, parts_cons.2 (.inl ⟨a, b, rfl, rfl, hne⟩)⟩
      · obtain ⟨first, name, below, rfl, hparts⟩ := ih hrest
        exact ⟨s :: first, name, below, rfl, parts_cons.2 (.inr ⟨rfl, hparts⟩)⟩

/-! ### Accepted items -/

namespace Selector

variable {selector : Selector} {item : Tree}

theorem accepts_iff : selector.accepts item ↔
    ∃ found text, item.field? selector.field = some found ∧ found.text? = some text ∧
      selector.matcher.accepts text := by
  unfold accepts
  cases hfound : item.field? selector.field with
  | none => simp
  | some found =>
    rw [Option.bind_some]
    cases htext : found.text? with
    | none => simp [htext]
    | some text => simp [htext]

/-- An item that is accepted is a mapping, in which no position and no condition picks anything. -/
theorem items?_of_accepts (h : selector.accepts item) : item.items? = none := by
  obtain ⟨found, -, hfound, -⟩ := accepts_iff.1 h
  obtain ⟨entries, hentries, -⟩ := Option.bind_eq_some_iff.1 hfound
  exact Tree.items?_of_entries? hentries

end Selector

/-! ### What stands at a key -/

namespace Tree

/-- What stands at a key of a node. -/
def spotAt (node : Tree) (name : String) : Spot :=
  match node.entries? with
  | none => .unkeyed
  | some entries =>
    match lookup? name entries with
    | none => .free
    | some value => .holds value

/-- What stands at a key of the node that a path leads to. -/
def spot (tree : Tree) (path : List Segment) (name : String) : Spot :=
  match tree.resolve? path with
  | none => .nowhere
  | some node => node.spotAt name

@[simp] theorem spot_nil (tree : Tree) (name : String) : tree.spot [] name = tree.spotAt name := by
  rw [spot, resolve?_nil]

theorem spot_cons (tree : Tree) (segment : Segment) (path : List Segment) (name : String) :
    tree.spot (segment :: path) name =
      match tree.child? segment with
      | none => .nowhere
      | some child => child.spot path name := by
  rw [spot, resolve?_cons]
  cases tree.child? segment <;> rfl

theorem spot_of_resolve? {tree node : Tree} {path : List Segment}
    (h : tree.resolve? path = some node) (name : String) :
    tree.spot path name = node.spotAt name := by
  rw [spot, h]

theorem value?_spotAt (node : Tree) (name : String) :
    (node.spotAt name).value? = node.field? name := by
  unfold spotAt field?
  cases node.entries? with
  | none => rfl
  | some entries => cases hvalue : lookup? name entries <;> simp [hvalue, Spot.value?]

theorem value?_spot (tree : Tree) (path : List Segment) (name : String) :
    (tree.spot path name).value? = tree.resolve? (path ++ [.key name]) := by
  rw [spot, resolve?_append]
  cases tree.resolve? path with
  | none => rfl
  | some node => rw [Option.bind_some, resolve?_singleton, child?, ← value?_spotAt]

/-- Nodes with the same at all keys but one. -/
def AgreeOff (name : String) (a b : Tree) : Prop :=
  ∀ other, other ≠ name → a.spotAt other = b.spotAt other

theorem AgreeOff.field? {name other : String} {a b : Tree} (h : AgreeOff name a b)
    (hne : other ≠ name) : a.field? other = b.field? other := by
  rw [← value?_spotAt, ← value?_spotAt, h other hne]

/-- A condition on another field is met by both or neither. -/
theorem AgreeOff.accepts {name : String} {a b : Tree} {selector : Selector} (h : AgreeOff name a b)
    (hfield : selector.field ≠ name) : selector.accepts a = selector.accepts b := by
  unfold Selector.accepts
  rw [h.field? hfield]

/-- A change at the end of a path. The conditions on the way pick the same item before and after. -/
inductive Changed (leaf : Tree → Tree → Prop) : List Segment → Tree → Tree → Prop
  | here {a b : Tree} (h : leaf a b) : Changed leaf [] a b
  | key {name : String} {rest : List Segment} {a b c d : Tree} (hold : a.spotAt name = .holds c)
      (hnew : b.spotAt name = .holds d) (hothers : AgreeOff name b a) (h : Changed leaf rest c d) :
    Changed leaf (.key name :: rest) a b
  | item {segment : Segment} {rest : List Segment} {a b c d : Tree} {pre post : List Tree}
      (hold : a.items? = some (pre ++ c :: post)) (hnew : b.items? = some (pre ++ d :: post))
      (hpicks : segment.picks pre c) (hstill : segment.picks pre d) (h : Changed leaf rest c d) :
    Changed leaf (segment :: rest) a b

/-- Whether a change at the end of a path leaves every condition on the way accepted: it is below
another key than the one that the condition looks at, or is itself accepted. -/
def Steady (leaf : Tree → Tree → Prop) : List Segment → Prop
  | [] => True
  | [.find selector] => ∀ a b, leaf a b → selector.accepts a → selector.accepts b
  | .find selector :: .key name :: rest => selector.field ≠ name ∧ Steady leaf (.key name :: rest)
  | .find _ :: _ => False
  | _ :: rest => Steady leaf rest

theorem Steady.tail {leaf : Tree → Tree → Prop} {segment : Segment} {rest : List Segment}
    (h : Steady leaf (segment :: rest)) : Steady leaf rest := by
  cases segment with
  | key | index => exact h
  | find selector =>
    match rest, h with
    | [], _ => trivial
    | .key _ :: _, h => exact h.2

theorem Steady.of_suffix {leaf : Tree → Tree → Prop} {path rest : List Segment}
    (h : Steady leaf path) (hsuffix : rest <:+ path) : Steady leaf rest := by
  obtain ⟨above, rfl⟩ := hsuffix
  induction above with
  | nil => exact h
  | cons segment above ih => exact ih h.tail

/-! ### Entries -/

theorem spotAt_of_entries? {node : Tree} {entries : List Entry} (h : node.entries? = some entries)
    {name : String} {value : Tree} (hvalue : lookup? name entries = some value) :
    node.spotAt name = .holds value := by
  rw [spotAt, h]
  simp only [hvalue]

/-- An entry with another value changes nothing at other keys. -/
theorem agreeOff_of_entries? {name : String} {a b : Tree} {pre post : List Entry} {old new : Tree}
    (hold : a.entries? = some (pre ++ (.text name, old) :: post))
    (hnew : b.entries? = some (pre ++ (.text name, new) :: post)) : AgreeOff name b a := by
  intro other hother
  rw [spotAt, spotAt, hold, hnew]
  simp only [lookup?_of_ne hother pre post old new]

/-! ### Changes -/

variable {ε : Type} {f : Tree → Except ε Tree} {missing : ε} {path : List Segment} {a b : Tree}

/-- A change that strings refuse is not made at a string or below it. -/
theorem not_change_of_text? (hf : ∀ n m, f n = .ok m → n.text? = none) {node : Tree} {text : String}
    (htext : node.text? = some text) : node.change f missing path ≠ .ok b := by
  intro h
  cases path with
  | nil =>
    rw [hf _ _ h] at htext
    cases htext
  | cons segment rest =>
    rw [change_cons, changeChild_of_none (child?_of_text? htext segment)] at h
    cases h

/-- An item that a condition accepts is still accepted after a change below it, unless the change is
below the very field that the condition looks at. What stands there is a string. -/
theorem accepts_of_change {selector : Selector} {segment : Segment} {rest : List Segment}
    (haccepts : selector.accepts a)
    (hfield : segment = .key selector.field → ∀ (node : Tree) (text : String),
      node.text? = some text → ∀ changed, node.change f missing rest ≠ .ok changed)
    (h : a.change f missing (segment :: rest) = .ok b) : selector.accepts b := by
  rw [change_cons] at h
  cases childChanged h with
  | @value name _ _ pre post old new hold hnew hpre hchange =>
    by_cases hname : selector.field = name
    · obtain ⟨found, text, hfound, htext, -⟩ := Selector.accepts_iff.1 haccepts
      have hold' : a.field? name = some old := by
        rw [field?, hold, Option.bind_some, lookup?_append old post hpre]
      rw [← hname, hfound] at hold'
      obtain rfl := Option.some.inj hold'
      exact absurd hchange (hfield (by rw [hname]) found text htext new)
    · rwa [(agreeOff_of_entries? hold hnew).accepts hname]
  | item hold =>
    rw [Selector.items?_of_accepts haccepts] at hold
    cases hold

/-- What a change at the end of a path does, if every condition on the way still accepts what it
picks. -/
theorem changed_of_accepts
    (hstill : ∀ selector rest, .find selector :: rest <:+ path → ∀ n m : Tree,
      selector.accepts n → n.change f missing rest = .ok m → selector.accepts m)
    (h : a.change f missing path = .ok b) : Changed (fun n m => f n = .ok m) path a b := by
  induction path generalizing a b with
  | nil => exact .here h
  | cons segment rest ih =>
    have hbelow {c d : Tree} := ih (a := c) (b := d) fun selector more hsuffix =>
      hstill selector more (hsuffix.trans (List.suffix_cons segment rest))
    rw [change_cons] at h
    cases childChanged h with
    | @value name _ _ pre post old new hold hnew hpre hchange =>
      exact .key (spotAt_of_entries? hold (lookup?_append old post hpre))
        (spotAt_of_entries? hnew (lookup?_append new post hpre)) (agreeOff_of_entries? hold hnew)
        (hbelow hchange)
    | item hold hnew hpicks hchange =>
      refine .item hold hnew hpicks ?_ (hbelow hchange)
      cases segment with
      | key => cases hpicks
      | index => exact hpicks
      | find selector =>
        exact ⟨hstill selector rest List.suffix_rfl _ _ hpicks.1 hchange, hpicks.2⟩

/-- What a change at the end of a steady path does. -/
theorem changed_of_change (hsteady : Steady (fun n m => f n = .ok m) path)
    (h : a.change f missing path = .ok b) : Changed (fun n m => f n = .ok m) path a b := by
  refine changed_of_accepts (fun selector rest hsuffix n m haccepts hchange => ?_) h
  match rest, hsteady.of_suffix hsuffix with
  | [], hsteady => exact hsteady n m hchange haccepts
  | .key _ :: _, hsteady =>
    exact accepts_of_change haccepts (fun hkey => absurd (Segment.key.inj hkey).symm hsteady.1)
      hchange

namespace Changed

variable {leaf : Tree → Tree → Prop} {path first rest : List Segment}

/-- What a segment leads to on the way, and the change below it. -/
theorem exists_of_cons {segment : Segment} (h : Changed leaf (segment :: rest) a b) :
    ∃ n m, a.child? segment = some n ∧ b.child? segment = some m ∧ Changed leaf rest n m := by
  cases h with
  | @key name _ _ _ c d hold hnew _ h =>
    refine ⟨c, d, ?_, ?_, h⟩
    · rw [child?, ← value?_spotAt, hold, Spot.value?]
    · rw [child?, ← value?_spotAt, hnew, Spot.value?]
  | item hold hnew hpicks hstill h =>
    exact ⟨_, _, child?_of_picks hold hpicks, child?_of_picks hnew hstill, h⟩

/-- The nodes on the way, and the change below them. -/
theorem exists_of_append (h : Changed leaf (first ++ rest) a b) :
    ∃ n m, a.resolve? first = some n ∧ b.resolve? first = some m ∧ Changed leaf rest n m := by
  induction first generalizing a b with
  | nil => exact ⟨a, b, resolve?_nil a, resolve?_nil b, h⟩
  | cons segment first ih =>
    obtain ⟨c, d, hc, hd, hbelow⟩ := h.exists_of_cons
    obtain ⟨n, m, hn, hm, hrest⟩ := ih hbelow
    refine ⟨n, m, ?_, ?_, hrest⟩
    · rw [resolve?_cons, hc, Option.bind_some, hn]
    · rw [resolve?_cons, hd, Option.bind_some, hm]

/-- The nodes at the end of the path. -/
theorem exists_leaf (h : Changed leaf path a b) :
    ∃ n m, a.resolve? path = some n ∧ b.resolve? path = some m ∧ leaf n m := by
  rw [← List.append_nil path] at h
  obtain ⟨n, m, hn, hm, hleaf⟩ := h.exists_of_append
  cases hleaf with
  | here hleaf => exact ⟨n, m, hn, hm, hleaf⟩

/-- **What stands at a spot stays** if its path parts from that of the change. -/
theorem spot_eq {name field : String} (h : Changed leaf path a b)
    (hleaf : ∀ n m, leaf n m → AgreeOff name m n) {other : List Segment}
    (hparts : parts (other ++ [.key field]) (path ++ [.key name])) :
    b.spot other field = a.spot other field := by
  induction h generalizing other with
  | @here a b h =>
    cases other with
    | nil =>
      rw [spot_nil, spot_nil]
      exact hleaf a b h field (by simpa [parts] using hparts)
    | cons above below =>
      rw [List.cons_append, List.nil_append, parts_cons, parts_nil_right] at hparts
      -- the path goes on below another key than the one that changed
      obtain ⟨key, _, rfl, hname, hne⟩ | ⟨-, hnil⟩ := hparts
      · obtain rfl := Segment.key.inj hname
        rw [spot_cons, spot_cons, child?, child?, (hleaf a b h).field? hne]
      · cases hnil
  | @key name' rest a b c d hold hnew hothers h ih =>
    cases other with
    | nil =>
      rw [spot_nil, spot_nil]
      exact hothers field (by simpa [parts] using hparts)
    | cons above below =>
      rw [List.cons_append, List.cons_append, parts_cons] at hparts
      obtain ⟨key, _, rfl, hname, hne⟩ | ⟨rfl, hbelow⟩ := hparts
      · obtain rfl := Segment.key.inj hname
        rw [spot_cons, spot_cons, child?, child?, hothers.field? hne]
      · rw [spot_cons, spot_cons, child?, child?, ← value?_spotAt, ← value?_spotAt, hold, hnew]
        exact ih hbelow
  | @item segment rest a b c d pre post hold hnew hpicks hstill h ih =>
    cases other with
    | nil =>
      cases segment with
      | key => cases hpicks
      | index | find => simp [parts] at hparts
    | cons above below =>
      rw [List.cons_append, List.cons_append, parts_cons] at hparts
      -- paths part at keys only, so this one goes through the same item
      obtain ⟨_, key, -, rfl, -⟩ | ⟨rfl, hbelow⟩ := hparts
      · cases hpicks
      · rw [spot_cons, spot_cons, child?_of_picks hold hpicks, child?_of_picks hnew hstill]
        exact ih hbelow

/-- What a path leads to stays if it parts from the path of the change. -/
theorem resolve?_eq {name : String} (h : Changed leaf path a b)
    (hleaf : ∀ n m, leaf n m → AgreeOff name m n) {other : List Segment}
    (hparts : parts other (path ++ [.key name])) : b.resolve? other = a.resolve? other := by
  obtain ⟨above, field, below, rfl, hspot⟩ := exists_of_parts hparts
  have hfield : b.resolve? (above ++ [.key field]) = a.resolve? (above ++ [.key field]) := by
    rw [← value?_spot, ← value?_spot, h.spot_eq hleaf hspot]
  rw [← List.singleton_append, ← List.append_assoc, resolve?_append, hfield, ← resolve?_append]

end Changed

/-! ### The same beside a path -/

/-- Trees that are the same beside a path, on which the conditions pick the same items in both. -/
def SameBeside : List Segment → Tree → Tree → Prop := Changed fun _ _ => True

theorem Changed.sameBeside {leaf : Tree → Tree → Prop} {first rest : List Segment}
    (h : Changed leaf (first ++ rest) a b) : SameBeside first a b := by
  induction first generalizing a b with
  | nil => exact .here trivial
  | cons segment first ih =>
    cases h with
    | key hold hnew hothers h => exact .key hold hnew hothers (ih h)
    | item hold hnew hpicks hstill h => exact .item hold hnew hpicks hstill (ih h)

theorem SameBeside.trans {c : Tree} (hab : SameBeside path a b) (hbc : SameBeside path b c) :
    SameBeside path a c := by
  induction hab generalizing c with
  | here => exact .here trivial
  | @key name rest a b old mid hold hmid hothers h ih =>
    cases hbc with
    | key hmid' hnew hothers' h' =>
      obtain rfl := Spot.holds.inj (hmid.symm.trans hmid')
      exact .key hold hnew (fun other hne => (hothers' other hne).trans (hothers other hne)) (ih h')
    | item _ _ hpicks => cases hpicks
  | @item segment rest a b old mid pre post hold hmid hpicks hstill h ih =>
    cases hbc with
    | key => cases hpicks
    | item hmid' hnew hpicks' hstill' h' =>
      obtain ⟨rfl, rfl, rfl⟩ :=
        Segment.picks_unique hstill hpicks' (Option.some.inj (hmid.symm.trans hmid'))
      exact .item hold hnew hpicks hstill' (ih h')

/-- The lists that a path leads to in two trees are the same but for one item, and a condition falls
on that item in both. -/
def FallsOnOne (selector : Selector) (path : List Segment) (a b : Tree) : Prop :=
  ∃ old new pre c d post, a.resolve? path = some old ∧ b.resolve? path = some new ∧
    old.items? = some (pre ++ c :: post) ∧ new.items? = some (pre ++ d :: post) ∧
    (Segment.find selector).picks pre c ∧ (Segment.find selector).picks pre d

theorem SameBeside.fallsOnOne {selector : Selector}
    (h : SameBeside (path ++ [.find selector]) a b) : FallsOnOne selector path a b := by
  obtain ⟨old, new, hold, hnew, hlast⟩ := Changed.exists_of_append h
  cases hlast with
  | item hitems hitems' hpicks hstill _ =>
    exact ⟨old, new, _, _, _, _, hold, hnew, hitems, hitems', hpicks, hstill⟩

end Tree

end OperatorBundle
