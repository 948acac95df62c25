import Mathlib.Data.List.Forall2
import Mathlib.Tactic.Common
import OperatorBundle.Tree.Equal

/-!
Equality of documents is an equivalence. A mapping is compared by looking up each key of one side in
the other, which is symmetric only where no mapping has two equal keys: `uniqueKeys` says so of a
tree at every depth, and on such trees `same` is reflexive, symmetric and transitive. What a mapping
has under a key then depends neither on the order of its entries nor on which of two equal keys it
is asked for.
-/

namespace OperatorBundle.Tree

open OperatorBundle.Number

/-- Induction on trees: what holds of the items and entries of a collection holds of it. -/
@[elab_as_elim]
theorem inductionOn {P : Tree → Prop} (null : P .null) (bool : ∀ b, P (.bool b))
    (int : ∀ n, P (.int n)) (float : ∀ x, P (.float x)) (text : ∀ s, P (.text s))
    (sequence : ∀ items, (∀ t ∈ items, P t) → P (.sequence items))
    (mapping : ∀ entries : List Entry, (∀ e ∈ entries, P e.1 ∧ P e.2) → P (.mapping entries))
    (tagged : ∀ tag content, P content → P (.tagged tag content)) (t : Tree) : P t := by
  refine @Tree.rec P (fun items => ∀ t ∈ items, P t) (fun entries => ∀ e ∈ entries, P e.1 ∧ P e.2)
    (fun e => P e.1 ∧ P e.2) null bool int float text sequence mapping tagged ?_ ?_ ?_ ?_ ?_ t
  · simp
  · intro t more ht hmore
    exact List.forall_mem_cons.2 ⟨ht, hmore⟩
  · simp
  · intro e more he hmore
    exact List.forall_mem_cons.2 ⟨he, hmore⟩
  · intro key value hkey hvalue
    exact ⟨hkey, hvalue⟩

/-! ### Trees without repeated keys -/

mutual
/-- Whether no mapping in a tree, at any depth, has two equal keys. -/
def uniqueKeys : Tree → Bool
  | .sequence items => uniqueKeysItems items
  | .mapping entries => uniqueKeysEntries entries
  | .tagged _ content => content.uniqueKeys
  | _ => true

/-- The same for each item of a list. -/
def uniqueKeysItems : List Tree → Bool
  | [] => true
  | item :: more => item.uniqueKeys && uniqueKeysItems more

/-- The same for the entries of a mapping. -/
def uniqueKeysEntries : List (Tree × Tree) → Bool
  | [] => true
  | (key, value) :: more =>
    key.uniqueKeys && value.uniqueKeys && !(more.any fun e => e.1.same key) &&
      uniqueKeysEntries more
end

/-- No key of a list of entries is equal to one before it. -/
def KeysDiffer (entries : List Entry) : Prop :=
  entries.Pairwise fun earlier later => later.1.same earlier.1 = false

theorem uniqueKeysItems_iff {items : List Tree} :
    uniqueKeysItems items ↔ ∀ t ∈ items, t.uniqueKeys := by
  induction items with
  | nil => simp [uniqueKeysItems]
  | cons t more ih => simp [uniqueKeysItems, ih]

@[simp] theorem uniqueKeys_sequence {items : List Tree} :
    (Tree.sequence items).uniqueKeys ↔ ∀ t ∈ items, t.uniqueKeys := by
  rw [uniqueKeys, uniqueKeysItems_iff]

theorem uniqueKeysEntries_iff {entries : List Entry} :
    uniqueKeysEntries entries ↔
      KeysDiffer entries ∧ ∀ e ∈ entries, e.1.uniqueKeys ∧ e.2.uniqueKeys := by
  induction entries with
  | nil => simp [uniqueKeysEntries, KeysDiffer]
  | cons e more ih =>
    obtain ⟨key, value⟩ := e
    simp only [KeysDiffer] at ih
    simp only [uniqueKeysEntries, KeysDiffer, Bool.and_eq_true, Bool.not_eq_true', ih,
      List.pairwise_cons, List.forall_mem_cons, List.any_eq_false, Bool.not_eq_true]
    tauto

@[simp] theorem uniqueKeys_mapping {entries : List Entry} :
    (Tree.mapping entries).uniqueKeys ↔
      KeysDiffer entries ∧ ∀ e ∈ entries, e.1.uniqueKeys ∧ e.2.uniqueKeys := by
  rw [uniqueKeys, uniqueKeysEntries_iff]

@[simp] theorem uniqueKeys_tagged {tag : String} {content : Tree} :
    (Tree.tagged tag content).uniqueKeys = content.uniqueKeys := by
  rw [uniqueKeys]

@[simp] theorem uniqueKeys_text (value : String) : (Tree.text value).uniqueKeys := by
  simp [uniqueKeys]

/-! ### Sameness of collections -/

theorem sameItems_iff {as bs : List Tree} :
    sameItems as bs ↔ List.Forall₂ (fun a b => a.same b) as bs := by
  induction as generalizing bs with
  | nil => cases bs <;> simp [sameItems]
  | cons a as ih =>
    cases bs with
    | nil => simp [sameItems]
    | cons b bs => simp [sameItems, ih]

theorem sameEntries_iff {entries others : List Entry} :
    sameEntries entries others ↔
      ∀ e ∈ entries, ∃ other, others.find? (fun x => e.1.same x.1) = some other ∧
        e.2.same other.2 := by
  induction entries with
  | nil => simp [sameEntries]
  | cons e more ih =>
    obtain ⟨key, value⟩ := e
    rw [sameEntries, Bool.and_eq_true, ih, List.forall_mem_cons]
    refine and_congr_left fun _ => ?_
    cases others.find? fun x => key.same x.1 with
    | none => simp
    | some other => simp

theorem exists_of_forall₂ {α β : Type} {r : α → β → Prop} {as : List α} {bs : List β} {a : α}
    (h : List.Forall₂ r as bs) (ha : a ∈ as) : ∃ b ∈ bs, r a b := by
  induction h with
  | nil => cases ha
  | @cons a' b as bs hr _ ih =>
    rcases List.mem_cons.1 ha with rfl | ha
    · exact ⟨b, by simp, hr⟩
    · obtain ⟨b', hb', hr'⟩ := ih ha
      exact ⟨b', List.mem_cons_of_mem _ hb', hr'⟩

/-- If each element of a list has a partner in a list of the same length, and no two of them the
same one, then each element of the second list is a partner. -/
theorem exists_partner {α β : Type} {r : α → β → Prop} {as : List α} {bs : List β}
    (hlength : as.length = bs.length) (hpartner : ∀ a ∈ as, ∃ b ∈ bs, r a b)
    (hone : as.Pairwise fun a a' => ∀ b ∈ bs, r a b → ¬ r a' b) :
    ∀ b ∈ bs, ∃ a ∈ as, r a b := by
  induction as generalizing bs with
  | nil =>
    intro b hb
    have : bs = [] := List.length_eq_zero_iff.1 hlength.symm
    simp [this] at hb
  | cons a as ih =>
    obtain ⟨hfirst, hrest⟩ := List.pairwise_cons.1 hone
    obtain ⟨b, hb, hab⟩ := hpartner a (by simp)
    obtain ⟨before, after, rfl⟩ := List.append_of_mem hb
    -- the partner of `a` is taken out, and no other element misses it
    have hcount : as.length = (before ++ after).length := by
      simp only [List.length_cons, List.length_append] at hlength ⊢
      omega
    have hothers := ih hcount
      (fun a' ha' => by
        obtain ⟨b', hb', hab'⟩ := hpartner a' (by simp [ha'])
        refine ⟨b', ?_, hab'⟩
        have hne : b' ≠ b := fun h => hfirst a' ha' b hb hab (h ▸ hab')
        simpa [hne] using hb')
      (hrest.imp fun h b' hb' => h b' (by
        simp only [List.mem_append, List.mem_cons] at hb' ⊢
        tauto))
    intro b' hb'
    simp only [List.mem_append, List.mem_cons] at hb'
    rcases hb' with hb' | rfl | hb'
    · obtain ⟨a', ha', h⟩ := hothers b' (by simp [hb'])
      exact ⟨a', by simp [ha'], h⟩
    · exact ⟨a, by simp, hab⟩
    · obtain ⟨a', ha', h⟩ := hothers b' (by simp [hb'])
      exact ⟨a', by simp [ha'], h⟩

/-! ### The laws

Symmetry of mappings rests on transitivity of their keys, so both are proved together, by induction
on a bound on the size of the trees. -/

/-- Sameness is symmetric and transitive on trees of a bounded size. -/
def LawfulBelow (bound : Nat) : Prop :=
  ∀ a b c : Tree, sizeOf a < bound → sizeOf b < bound → sizeOf c < bound →
    a.uniqueKeys → b.uniqueKeys → c.uniqueKeys →
    (a.same b → b.same a) ∧ (a.same b → b.same c → a.same c)

/-- Entries whose keys and values are smaller than a bound and have no repeated keys. -/
def SmallEntries (bound : Nat) (entries : List Entry) : Prop :=
  ∀ e ∈ entries, (sizeOf e.1 < bound ∧ e.1.uniqueKeys) ∧ sizeOf e.2 < bound ∧ e.2.uniqueKeys

theorem sizeOf_entry_lt {entries : List Entry} {e : Entry} (h : e ∈ entries) :
    sizeOf e.1 < sizeOf (Tree.mapping entries) ∧ sizeOf e.2 < sizeOf (Tree.mapping entries) := by
  have hlt := List.sizeOf_lt_of_mem h
  obtain ⟨key, value⟩ := e
  simp only [Prod.mk.sizeOf_spec, Tree.mapping.sizeOf_spec] at hlt ⊢
  omega

theorem smallEntries_of_mapping {bound : Nat} {entries : List Entry}
    (hsize : sizeOf (Tree.mapping entries) < bound + 1) (h : (Tree.mapping entries).uniqueKeys) :
    SmallEntries bound entries := by
  intro e he
  have hlt := sizeOf_entry_lt he
  have hunique := (uniqueKeys_mapping.1 h).2 e he
  exact ⟨⟨by omega, hunique.1⟩, by omega, hunique.2⟩

section Bounded

variable {bound : Nat} (laws : LawfulBelow bound)

include laws

theorem find?_of_lawfulBelow {entries : List Entry} {key : Tree} {e : Entry}
    (hdiffer : KeysDiffer entries) (hsmall : ∀ e ∈ entries, sizeOf e.1 < bound ∧ e.1.uniqueKeys)
    (hkey : sizeOf key < bound) (hunique : key.uniqueKeys) (he : e ∈ entries)
    (hsame : key.same e.1) : entries.find? (fun x => key.same x.1) = some e := by
  induction entries with
  | nil => simp at he
  | cons x more ih =>
    obtain ⟨hfirst, hrest⟩ := List.pairwise_cons.1 hdiffer
    obtain ⟨hx, hmore⟩ := List.forall_mem_cons.1 hsmall
    rcases List.mem_cons.1 he with rfl | hmem
    · simp [hsame]
    · -- an equal key further left would be equal to that of `e`
      have hne : key.same x.1 = false := by
        by_contra hx'
        have hx' : key.same x.1 = true := by simpa using hx'
        have hback := (laws key e.1 key hkey (hmore e hmem).1 hkey hunique (hmore e hmem).2
          hunique).1 hsame
        have htwice := (laws e.1 key x.1 (hmore e hmem).1 hkey hx.1 (hmore e hmem).2 hunique
          hx.2).2 hback hx'
        rw [hfirst e hmem] at htwice
        cases htwice
      rw [List.find?_cons_of_neg (by simp [hne])]
      exact ih hrest hmore hmem

theorem same_mapping_of_lawfulBelow {entries others : List Entry}
    (hlength : entries.length = others.length) (hdiffer : KeysDiffer others)
    (hentries : SmallEntries bound entries) (hothers : SmallEntries bound others)
    (h : ∀ e ∈ entries, ∃ other ∈ others, e.1.same other.1 ∧ e.2.same other.2) :
    (Tree.mapping entries).same (.mapping others) := by
  rw [same, Bool.and_eq_true, sameEntries_iff]
  refine ⟨by simp [hlength], ?_⟩
  intro e he
  obtain ⟨other, hmem, hkey, hvalue⟩ := h e he
  refine ⟨other, ?_, hvalue⟩
  exact find?_of_lawfulBelow laws hdiffer (fun x hx => (hothers x hx).1) (hentries e he).1.1
    (hentries e he).1.2 hmem hkey

end Bounded

/-- What sameness of mappings says, whatever is known of their keys. -/
theorem exists_of_same_mapping {entries others : List Entry}
    (h : (Tree.mapping entries).same (.mapping others)) :
    entries.length = others.length ∧
      ∀ e ∈ entries, ∃ other ∈ others, e.1.same other.1 ∧ e.2.same other.2 := by
  rw [same, Bool.and_eq_true, sameEntries_iff] at h
  refine ⟨by simpa using h.1, ?_⟩
  intro e he
  obtain ⟨other, hfind, hvalue⟩ := h.2 e he
  exact ⟨other, List.mem_of_find?_eq_some hfind, by simpa using List.find?_some hfind, hvalue⟩

theorem double_same_trans {x y z : Double} (hxy : x.same y) (hyz : y.same z) : x.same z := by
  simp only [Double.same] at *
  cases hx : x.isNaN <;> cases hy : y.isNaN <;> cases hz : z.isNaN <;>
    simp only [hx, hy, hz, Bool.or_false, Bool.or_true, Bool.false_eq_true, if_false, if_true,
      Bool.and_true, Bool.and_false, Bool.or_eq_true, Bool.and_eq_true,
      decide_eq_true_eq] at hxy hyz ⊢
  rcases hxy with hxy | hxy <;> rcases hyz with hyz | hyz
  · exact .inl (hxy.trans hyz)
  · have : x = y := by cases x; cases y; simp_all
    exact .inr (this ▸ hyz)
  · have : y = z := by cases y; cases z; simp_all
    exact .inr (this ▸ hxy)
  · exact .inr ⟨hxy.1, hyz.2⟩

theorem symm_mapping {bound : Nat} (laws : LawfulBelow bound) {entries others : List Entry}
    (hentries : KeysDiffer entries) (hsmall : SmallEntries bound entries)
    (hsmall' : SmallEntries bound others)
    (h : (Tree.mapping entries).same (.mapping others)) :
    (Tree.mapping others).same (.mapping entries) := by
  obtain ⟨hlength, hpartner⟩ := exists_of_same_mapping h
  refine same_mapping_of_lawfulBelow laws hlength.symm hentries hsmall' hsmall ?_
  intro other hother
  obtain ⟨e, he, hkey, hvalue⟩ := exists_partner
    (r := fun e other : Entry => e.1.same other.1 ∧ e.2.same other.2) hlength hpartner
    (by
      -- two keys that are equal to the same key are equal to each other
      refine hentries.imp_of_mem fun {a b} ha hb hne other hother hra hrb => ?_
      have hback := (laws a.1 other.1 a.1 (hsmall a ha).1.1 (hsmall' other hother).1.1
        (hsmall a ha).1.1 (hsmall a ha).1.2 (hsmall' other hother).1.2 (hsmall a ha).1.2).1 hra.1
      have htwice := (laws b.1 other.1 a.1 (hsmall b hb).1.1 (hsmall' other hother).1.1
        (hsmall a ha).1.1 (hsmall b hb).1.2 (hsmall' other hother).1.2
        (hsmall a ha).1.2).2 hrb.1 hback
      rw [hne] at htwice
      cases htwice)
    other hother
  refine ⟨e, he, ?_, ?_⟩
  · exact (laws e.1 other.1 e.1 (hsmall e he).1.1 (hsmall' other hother).1.1 (hsmall e he).1.1
      (hsmall e he).1.2 (hsmall' other hother).1.2 (hsmall e he).1.2).1 hkey
  · exact (laws e.2 other.2 e.2 (hsmall e he).2.1 (hsmall' other hother).2.1 (hsmall e he).2.1
      (hsmall e he).2.2 (hsmall' other hother).2.2 (hsmall e he).2.2).1 hvalue

theorem trans_mapping {bound : Nat} (laws : LawfulBelow bound) {as bs cs : List Entry}
    (hcs : KeysDiffer cs) (has : SmallEntries bound as) (hbs : SmallEntries bound bs)
    (hcs' : SmallEntries bound cs) (hab : (Tree.mapping as).same (.mapping bs))
    (hbc : (Tree.mapping bs).same (.mapping cs)) : (Tree.mapping as).same (.mapping cs) := by
  obtain ⟨hlength, hpartner⟩ := exists_of_same_mapping hab
  obtain ⟨hlength', hpartner'⟩ := exists_of_same_mapping hbc
  refine same_mapping_of_lawfulBelow laws (hlength.trans hlength') hcs has hcs' ?_
  intro a ha
  obtain ⟨b, hb, hkey, hvalue⟩ := hpartner a ha
  obtain ⟨c, hc, hkey', hvalue'⟩ := hpartner' b hb
  refine ⟨c, hc, ?_, ?_⟩
  · exact (laws a.1 b.1 c.1 (has a ha).1.1 (hbs b hb).1.1 (hcs' c hc).1.1 (has a ha).1.2
      (hbs b hb).1.2 (hcs' c hc).1.2).2 hkey hkey'
  · exact (laws a.2 b.2 c.2 (has a ha).2.1 (hbs b hb).2.1 (hcs' c hc).2.1 (has a ha).2.2
      (hbs b hb).2.2 (hcs' c hc).2.2).2 hvalue hvalue'

/-- How two trees that are the same are made. -/
inductive SameForm : Tree → Tree → Prop
  | null : SameForm .null .null
  | bool (x : Bool) : SameForm (.bool x) (.bool x)
  | int (n : Int) : SameForm (.int n) (.int n)
  | float (x y : Double) : x.same y → SameForm (.float x) (.float y)
  | text (s : String) : SameForm (.text s) (.text s)
  | sequence (as bs : List Tree) :
      List.Forall₂ (fun a b => a.same b) as bs → SameForm (.sequence as) (.sequence bs)
  | mapping (as bs : List Entry) :
      (Tree.mapping as).same (.mapping bs) → SameForm (.mapping as) (.mapping bs)
  | tagged (tag : String) (a b : Tree) : a.same b → SameForm (.tagged tag a) (.tagged tag b)

theorem sameForm {a b : Tree} (h : a.same b) : SameForm a b := by
  cases a <;> cases b <;> try (simp [same] at h; done)
  case null.null => exact .null
  case bool.bool x y =>
    obtain rfl : x = y := by simpa [same] using h
    exact .bool x
  case int.int x y =>
    obtain rfl : x = y := by simpa [same] using h
    exact .int x
  case float.float x y => exact .float x y (by simpa [same] using h)
  case text.text x y =>
    obtain rfl : x = y := by simpa [same] using h
    exact .text x
  case sequence.sequence as bs => exact .sequence as bs (sameItems_iff.1 (by simpa [same] using h))
  case mapping.mapping as bs => exact .mapping as bs h
  case tagged.tagged s x t y =>
    rw [same, Bool.and_eq_true, decide_eq_true_eq] at h
    obtain ⟨rfl, h⟩ := h
    exact .tagged s x y h

theorem forall₂_symm {bound : Nat} (laws : LawfulBelow bound) {as bs : List Tree}
    (has : ∀ a ∈ as, sizeOf a < bound ∧ a.uniqueKeys)
    (hbs : ∀ b ∈ bs, sizeOf b < bound ∧ b.uniqueKeys)
    (h : List.Forall₂ (fun a b => a.same b) as bs) :
    List.Forall₂ (fun a b => a.same b) bs as := by
  induction h with
  | nil => exact .nil
  | @cons a b as bs hab _ ih =>
    obtain ⟨ha, has⟩ := List.forall_mem_cons.1 has
    obtain ⟨hb, hbs⟩ := List.forall_mem_cons.1 hbs
    exact .cons ((laws a b a ha.1 hb.1 ha.1 ha.2 hb.2 ha.2).1 hab) (ih has hbs)

theorem forall₂_trans {bound : Nat} (laws : LawfulBelow bound) {as bs cs : List Tree}
    (has : ∀ a ∈ as, sizeOf a < bound ∧ a.uniqueKeys)
    (hbs : ∀ b ∈ bs, sizeOf b < bound ∧ b.uniqueKeys)
    (hcs : ∀ c ∈ cs, sizeOf c < bound ∧ c.uniqueKeys)
    (hab : List.Forall₂ (fun a b => a.same b) as bs)
    (hbc : List.Forall₂ (fun b c => b.same c) bs cs) :
    List.Forall₂ (fun a c => a.same c) as cs := by
  induction hab generalizing cs with
  | nil => cases hbc; exact .nil
  | @cons a b as bs h _ ih =>
    cases hbc with
    | @cons _ c _ cs h' hbc =>
      obtain ⟨ha, has⟩ := List.forall_mem_cons.1 has
      obtain ⟨hb, hbs⟩ := List.forall_mem_cons.1 hbs
      obtain ⟨hc, hcs⟩ := List.forall_mem_cons.1 hcs
      exact .cons ((laws a b c ha.1 hb.1 hc.1 ha.2 hb.2 hc.2).2 h h') (ih has hbs hcs hbc)

theorem small_of_sequence {bound : Nat} {items : List Tree}
    (hsize : sizeOf (Tree.sequence items) < bound + 1) (h : (Tree.sequence items).uniqueKeys) :
    ∀ t ∈ items, sizeOf t < bound ∧ t.uniqueKeys := by
  intro t ht
  have hlt := List.sizeOf_lt_of_mem ht
  simp only [Tree.sequence.sizeOf_spec] at hsize
  exact ⟨by omega, uniqueKeys_sequence.1 h t ht⟩

theorem lawfulBelow (bound : Nat) : LawfulBelow bound := by
  induction bound with
  | zero => intro a b c ha; omega
  | succ bound laws =>
    intro a b c ha hb hc ua ub uc
    constructor
    · intro hab
      cases sameForm hab with
      | null | bool | int | text => exact hab
      | float x y hxy => rwa [same, Double.same_comm]
      | sequence as bs h =>
        rw [same, sameItems_iff]
        exact forall₂_symm laws (small_of_sequence ha ua) (small_of_sequence hb ub) h
      | mapping as bs h =>
        exact symm_mapping laws (uniqueKeys_mapping.1 ua).1 (smallEntries_of_mapping ha ua)
          (smallEntries_of_mapping hb ub) h
      | tagged tag x y h =>
        simp only [Tree.tagged.sizeOf_spec, uniqueKeys_tagged] at ha hb ua ub
        simp [same, (laws x y x (by omega) (by omega) (by omega) ua ub ua).1 h]
    · intro hab hbc
      cases sameForm hab with
      | null | bool | int | text => exact hbc
      | float x y hxy =>
        cases sameForm hbc with
        | float y z hyz => exact double_same_trans hxy hyz
      | sequence as bs h =>
        cases sameForm hbc with
        | sequence bs cs h' =>
          rw [same, sameItems_iff]
          exact forall₂_trans laws (small_of_sequence ha ua) (small_of_sequence hb ub)
            (small_of_sequence hc uc) h h'
      | mapping as bs h =>
        cases sameForm hbc with
        | mapping bs cs h' =>
          exact trans_mapping laws (uniqueKeys_mapping.1 uc).1 (smallEntries_of_mapping ha ua)
            (smallEntries_of_mapping hb ub) (smallEntries_of_mapping hc uc) h h'
      | tagged tag x y h =>
        cases sameForm hbc with
        | tagged _ y z h' =>
          simp only [Tree.tagged.sizeOf_spec, uniqueKeys_tagged] at ha hb hc ua ub uc
          simp [same, (laws x y z (by omega) (by omega) (by omega) ua ub uc).2 h h']

theorem same_self {t : Tree} (h : t.uniqueKeys) : t.same t := by
  induction t using inductionOn with
  | null | bool | int | text => simp [same]
  | float x => simp [same]
  | sequence items ih =>
    rw [same, sameItems_iff, List.forall₂_same]
    exact fun t ht => ih t ht (uniqueKeys_sequence.1 h t ht)
  | mapping entries ih =>
    rw [uniqueKeys_mapping] at h
    rw [same, Bool.and_eq_true, sameEntries_iff]
    refine ⟨by simp, fun e he => ⟨e, ?_, (ih e he).2 (h.2 e he).2⟩⟩
    exact find?_of_lawfulBelow (lawfulBelow (sizeOf (Tree.mapping entries))) h.1
      (fun e he => ⟨(sizeOf_entry_lt he).1, (h.2 e he).1⟩)
      (sizeOf_entry_lt he).1 (h.2 e he).1 he ((ih e he).1 (h.2 e he).1)
  | tagged tag content ih => simp [same, ih (uniqueKeys_tagged ▸ h)]

theorem same_symm {a b : Tree} (ha : a.uniqueKeys) (hb : b.uniqueKeys) (h : a.same b) :
    b.same a :=
  (lawfulBelow (sizeOf a + sizeOf b + 1) a b a (by omega) (by omega) (by omega) ha hb ha).1 h

theorem same_trans {a b c : Tree} (ha : a.uniqueKeys) (hb : b.uniqueKeys) (hc : c.uniqueKeys)
    (hab : a.same b) (hbc : b.same c) : a.same c :=
  (lawfulBelow (sizeOf a + sizeOf b + sizeOf c + 1) a b c (by omega) (by omega) (by omega)
    ha hb hc).2 hab hbc

/-! ### Entries -/

/-- The entry that is found under a key is the one with an equal key. -/
theorem find?_same {entries : List Entry} {key : Tree} {e : Entry} (hdiffer : KeysDiffer entries)
    (hentries : ∀ e ∈ entries, e.1.uniqueKeys) (hkey : key.uniqueKeys) (he : e ∈ entries)
    (hsame : key.same e.1) : entries.find? (fun x => key.same x.1) = some e := by
  refine find?_of_lawfulBelow (lawfulBelow (sizeOf key + sizeOf (Tree.mapping entries) + 1)) hdiffer
    (fun x hx => ⟨?_, hentries x hx⟩) (by omega) hkey he hsame
  have := (sizeOf_entry_lt hx).1
  omega

theorem lookupSame?_same {entries : List Entry} {key : Tree} {e : Entry}
    (hdiffer : KeysDiffer entries) (hentries : ∀ e ∈ entries, e.1.uniqueKeys)
    (hkey : key.uniqueKeys) (he : e ∈ entries) (hsame : key.same e.1) :
    lookupSame? key entries = some e.2 := by
  rw [lookupSame?, find?_same hdiffer hentries hkey he hsame, Option.map_some]

/-- Two mappings are the same if each entry of one has its like in the other, and they have equally
many. -/
theorem same_mapping {entries others : List Entry} (hentries : (Tree.mapping entries).uniqueKeys)
    (hothers : (Tree.mapping others).uniqueKeys) (hlength : entries.length = others.length)
    (h : ∀ e ∈ entries, ∃ other ∈ others, e.1.same other.1 ∧ e.2.same other.2) :
    (Tree.mapping entries).same (.mapping others) :=
  same_mapping_of_lawfulBelow
    (lawfulBelow (sizeOf (Tree.mapping entries) + sizeOf (Tree.mapping others))) hlength
    (uniqueKeys_mapping.1 hothers).1
    (smallEntries_of_mapping (by omega) hentries) (smallEntries_of_mapping (by omega) hothers) h

end OperatorBundle.Tree
