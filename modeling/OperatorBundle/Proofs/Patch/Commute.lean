import OperatorBundle.Proofs.Locator.Slot
import OperatorBundle.Proofs.Patch.DistinctKeys

/-!
Operations in another order. An operation that follows keys and positions to its target is blind to
what happens at targets that are neither above nor below its own: it ends in the same way before and
after another operation there, and what the two leave differs in the order of keys at most. This
does not hold for an operation that drops an item of a sequence, since the items behind it move up.

* `Operation.onPath_swap`: two operations may change places.
* `applyPatch_perm`: so may any number of them.
-/

namespace OperatorBundle

open OperatorBundle.Tree (Step)

/-! ### Operations step by step -/

/-- Whether a guard lets an operation run on a document in which its target is there, or is not. -/
def Guard.allowsIf (present : Bool) : Guard → Bool
  | .when condition => condition
  | .ifAbsent => !present
  | .ifPresent => present

theorem Guard.allows_eq (guard : Guard) (target : Locator) (root : Tree) :
    guard.allows target root = guard.allowsIf (root.resolve? target.segments).isSome := by
  cases guard with
  | when => rfl
  | ifAbsent => exact (Option.not_isSome _).symm
  | ifPresent => rfl

namespace Operation

/-- How an operation ends where a missing target is passed over, and what it leaves. -/
def ends (operation : Operation) (present : Bool) (acted : Except Failure Spot) (spot : Spot) :
    Except Failure (Spot × Outcome) :=
  if operation.guard.all (·.allowsIf present) then
    match acted with
    | .ok left => .ok (left, .applied)
    | .error .missing => .ok (spot, .missed)
    | .error failure => .error failure
  else .ok (spot, .skipped)

/-- How an operation ends, from what stands at its target. -/
def onSpot (operation : Operation) (spot : Spot) : Except Failure (Spot × Outcome) :=
  operation.ends spot.value?.isSome (operation.action.onSpot spot) spot

/-- How an operation ends, from what stands at the start of a path to its target. -/
def onPath (operation : Operation) : List Step → Spot → Except Failure (Spot × Outcome)
  | [], spot => operation.onSpot spot
  | step :: rest, .holds node =>
    (operation.onPath rest (node.slot step)).map fun out =>
      (.holds (node.withSlot step out.1), out.2)
  | _ :: _, spot => (operation.onSpot .nowhere).map fun out => (spot, out.2)

/-- An operation whose target is reached by keys and positions, and that drops no item of a
sequence. -/
structure AtSteps (operation : Operation) (path : List Step) : Prop where
  target : operation.target.segments = path.map Step.segment
  keeps : operation.action = .remove → ∀ position, path.getLast? ≠ some (.index position)

/-- Operations neither of whose targets is above the other or the same. -/
def Incomparable (a b : Operation) : Prop :=
  ¬ a.target.segments <+: b.target.segments ∧ ¬ b.target.segments <+: a.target.segments

variable {operation : Operation} {path : List Step} {spot left : Spot} {outcome : Outcome}
  {tree changed : Tree} {record : Record}

theorem Incomparable.symm {a b : Operation} (h : a.Incomparable b) : b.Incomparable a :=
  And.symm h

theorem ends_map (operation : Operation) (present : Bool) (acted : Except Failure Spot)
    (spot : Spot) (f : Spot → Spot) :
    operation.ends present (acted.map f) (f spot) =
      (operation.ends present acted spot).map fun out => (f out.1, out.2) := by
  unfold ends
  split_ifs
  · cases acted with
    | ok left => rfl
    | error failure => cases failure <;> rfl
  · rfl

end Operation

/-- What an action that drops no item makes of a parent at a step. -/
theorem Action.onParent_eq_slot {action : Action} {last : Step}
    (hkeeps : action = .remove → ∀ position, last ≠ .index position) (node : Tree) :
    action.onParent last.segment node =
      (action.onSpot (node.slot last)).map (node.withSlot last) := by
  cases last with
  | key name => exact action.onParent_eq name node
  | index position =>
    -- an item is changed where it stands, or there is none
    have hitem (f : Tree → Except Failure Tree)
        (hf : ∀ v, action.onSpot (.holds v) = (f v).map .holds) :
        node.changeChild f .missing (.index position) =
          (action.onSpot (node.slot (.index position))).map (node.withSlot (.index position)) := by
      cases hchild : node.child? (.index position) with
      | none =>
        have hslot : node.slot (.index position) = .nowhere := by
          rw [Tree.slot, hchild, Tree.itemSpot]
        rw [hslot, Tree.changeChild_of_none hchild]
        rfl
      | some v =>
        have hslot : node.slot (.index position) = .holds v := by
          rw [Tree.slot, hchild, Tree.itemSpot]
        rw [hslot, hf]
        refine (Tree.changeChild_of_slot hslot : node.changeChild f .missing _ = _).trans ?_
        cases f v <;> rfl
    cases action with
    | set value => exact hitem _ fun _ => rfl
    | remove => exact absurd rfl (hkeeps rfl position)
    | replace | setEntries => exact hitem _ fun _ => rfl

namespace Operation

variable {operation : Operation} {path : List Step} {spot left : Spot} {outcome : Outcome}
  {tree changed : Tree} {record : Record}

/-- Where the way to a target ends early nothing is left but what was there. -/
theorem onPath_of_not_holds (hpath : path ≠ []) (hspot : ∀ node, spot ≠ .holds node) :
    operation.onPath path spot =
      (operation.ends false (.error .missing) spot).map fun out => (spot, out.2) := by
  cases path with
  | nil => exact absurd rfl hpath
  | cons step rest =>
    cases spot with
    | holds node => exact absurd rfl (hspot node)
    | nowhere | unkeyed | free =>
      show (operation.ends false (.error .missing) .nowhere).map _ = _
      unfold ends
      split_ifs <;> rfl

/-- Followed step by step, an operation does what it does to the document at once. -/
theorem onPath_append (operation : Operation) {last : Step}
    (hkeeps : operation.action = .remove → ∀ position, last ≠ .index position) (above : List Step)
    (node : Tree) :
    operation.onPath (above ++ [last]) (.holds node) =
      operation.ends (node.at? (above ++ [last])).isSome
        ((node.change (operation.action.onParent last.segment) .missing
          (above.map Step.segment)).map .holds) (.holds node) := by
  induction above generalizing node with
  | nil =>
    have hmap := operation.ends_map (node.slot last).value?.isSome
      (operation.action.onSpot (node.slot last)) (node.slot last)
      fun x => .holds (node.withSlot last x)
    rw [Tree.withSlot_slot] at hmap
    have hat : node.at? [last] = (node.slot last).value? := by
      rw [Tree.value?_slot]
      exact Tree.resolve?_singleton node last.segment
    refine hmap.symm.trans ?_
    show _ = operation.ends (node.at? [last]).isSome
      ((operation.action.onParent last.segment node).map .holds) _
    rw [hat, Action.onParent_eq_slot hkeeps]
    cases operation.action.onSpot (node.slot last) <;> rfl
  | cons step above ih =>
    show (operation.onPath (above ++ [last]) (node.slot step)).map _ = _
    have hat := node.at?_cons step (above ++ [last])
    rw [← Tree.value?_slot] at hat
    rw [List.cons_append, hat, List.map_cons, Tree.change_cons]
    by_cases hslot : ∃ child, node.slot step = .holds child
    · obtain ⟨child, hslot⟩ := hslot
      have hself := node.withSlot_slot step
      rw [hslot] at hself
      have hmap := operation.ends_map (child.at? (above ++ [last])).isSome
        ((child.change (operation.action.onParent last.segment) .missing
          (above.map Step.segment)).map .holds) (.holds child)
        fun x => .holds (node.withSlot step x)
      rw [hself] at hmap
      rw [Tree.changeChild_of_slot hslot, hslot, ih, ← hmap]
      cases child.change (operation.action.onParent last.segment) .missing
        (above.map Step.segment) <;> rfl
    · have hspot : ∀ child, node.slot step ≠ .holds child := fun child h => hslot ⟨child, h⟩
      have hvalue : (node.slot step).value? = none := by
        cases hspot : node.slot step with
        | holds child => exact absurd ⟨child, hspot⟩ hslot
        | nowhere | unkeyed | free => rfl
      have hchild : node.child? step.segment = none := by rw [← Tree.value?_slot, hvalue]
      have hmap := operation.ends_map false (.error .missing) (node.slot step)
        fun _ => .holds node
      rw [onPath_of_not_holds (by simp) hspot, hvalue, Tree.changeChild_of_none hchild]
      refine Eq.trans ?_ hmap.symm
      unfold ends
      split_ifs
      · show Except.ok (Spot.holds (node.withSlot step (node.slot step)), _) = _
        rw [Tree.withSlot_slot]
        rfl
      · show Except.ok (Spot.holds (node.withSlot step (node.slot step)), _) = _
        rw [Tree.withSlot_slot]
        rfl

theorem allowed_eq (operation : Operation) (root : Tree) :
    operation.allowed root =
      operation.guard.all (·.allowsIf (root.resolve? operation.target.segments).isSome) := by
  unfold allowed
  cases operation.guard with
  | none => rfl
  | some guard => exact guard.allows_eq operation.target root

/-- How an operation ends well where missing targets are passed over. -/
theorem AtSteps.run_ignore_eq_ok (h : operation.AtSteps path) (hpath : path ≠ []) :
    operation.run .ignore tree = .ok (changed, record) ↔
      ∃ outcome, operation.onPath path (.holds tree) = .ok (.holds changed, outcome) ∧
        record = operation.record outcome := by
  obtain ⟨above, last, rfl⟩ := (List.eq_nil_or_concat' path).resolve_left hpath
  have hkeeps : operation.action = .remove → ∀ position, last ≠ .index position := by
    rintro hremove position rfl
    exact h.keeps hremove position (by simp)
  have htarget : operation.target.segments = above.map Step.segment ++ [last.segment] := by
    rw [h.target, List.map_append, List.map_cons, List.map_nil]
  rw [operation.onPath_append hkeeps, ← act_of_segments htarget, Tree.at?, ← h.target]
  unfold ends run
  rw [← allowed_eq]
  split_ifs
  · cases operation.act tree with
    | ok found => simp [Except.map, eq_comm]
    | error failure => cases failure <;> simp [Except.map, eq_comm]
  · simp [eq_comm]

/-! ### Alike documents -/

variable {s t x z : Spot} {o : Outcome}

theorem isSome_of_alike (h : s.Alike t) : s.value?.isSome = t.value?.isSome := by
  cases h <;> rfl

theorem onSpot_alike (haction : operation.action.uniqueKeys) (h : s.Alike t)
    (hends : operation.onSpot s = .ok (x, o)) :
    ∃ y, operation.onSpot t = .ok (y, o) ∧ x.Alike y := by
  unfold onSpot ends at hends ⊢
  rw [isSome_of_alike h] at hends
  have hacted := h.onSpot haction
  split_ifs at hends ⊢ with hallowed
  · generalize operation.action.onSpot s = a at hends hacted
    generalize operation.action.onSpot t = b at hacted
    cases hacted with
    | ok hleft =>
      cases hends
      exact ⟨_, rfl, hleft⟩
    | error failure =>
      cases failure with
      | missing =>
        cases hends
        exact ⟨_, rfl, h⟩
      | mismatch | noTarget => cases hends
  · cases hends
    exact ⟨_, rfl, h⟩

/-- An operation ends alike on what is alike. -/
theorem onPath_alike (haction : operation.action.uniqueKeys) (h : s.Alike t)
    (hends : operation.onPath path s = .ok (x, o)) :
    ∃ y, operation.onPath path t = .ok (y, o) ∧ x.Alike y := by
  induction path generalizing s t x with
  | nil => exact onSpot_alike haction h hends
  | cons step rest ih =>
    cases h with
    | holds hnode =>
      obtain ⟨out, hout, heq⟩ := map_eq_ok.1 hends
      cases heq
      obtain ⟨y, hy, hleft⟩ := ih (hnode.slot step) hout
      exact ⟨_, map_eq_ok.2 ⟨_, hy, rfl⟩, .holds (hnode.withSlot hleft step)⟩
    | nowhere | unkeyed | free =>
      obtain ⟨out, hout, heq⟩ := map_eq_ok.1 hends
      cases heq
      exact ⟨_, hends, by constructor⟩

theorem alike_self_of_onPath (haction : operation.action.uniqueKeys) (h : s.Alike s)
    (hends : operation.onPath path s = .ok (x, o)) : x.Alike x := by
  obtain ⟨y, hy, hleft⟩ := onPath_alike haction h hends
  rw [hends] at hy
  cases hy
  exact hleft

/-! ### Two operations -/

/-- An operation makes or drops nothing above its target. -/
theorem keeps_of_onPath (hpath : path ≠ []) (hends : operation.onPath path s = .ok (x, o)) :
    s.Keeps x := by
  cases path with
  | nil => exact absurd rfl hpath
  | cons step rest =>
    cases s with
    | holds node =>
      obtain ⟨out, -, heq⟩ := map_eq_ok.1 hends
      cases heq
      exact .inr ⟨_, _, rfl, rfl⟩
    | nowhere | unkeyed | free =>
      obtain ⟨out, -, heq⟩ := map_eq_ok.1 hends
      cases heq
      exact .inl rfl

/-- **Two operations may change places** if neither path is a part of the other: each ends as it
did, and they leave the like of what they left. -/
theorem onPath_swap {a b : Operation} (ha : a.action.uniqueKeys) (hb : b.action.uniqueKeys)
    {p q : List Step} (hpq : ¬ p <+: q) (hqp : ¬ q <+: p) (hs : s.Alike s) {o' : Outcome}
    (hfirst : a.onPath p s = .ok (x, o)) (hsecond : b.onPath q x = .ok (z, o')) :
    ∃ y w, b.onPath q s = .ok (y, o') ∧ a.onPath p y = .ok (w, o) ∧ w.Alike z := by
  induction p generalizing q s x z with
  | nil => exact absurd List.nil_prefix hpq
  | cons step rest ih =>
    cases q with
    | nil => exact absurd List.nil_prefix hqp
    | cons next below =>
      cases s with
      | nowhere | unkeyed | free =>
        -- both end where the way does
        obtain ⟨out, -, heq⟩ := map_eq_ok.1 hfirst
        cases heq
        obtain ⟨out', -, heq⟩ := map_eq_ok.1 hsecond
        cases heq
        exact ⟨_, _, hsecond, hfirst, hs⟩
      | holds node =>
        cases hs with
        | holds hnode =>
          obtain ⟨⟨x', o⟩, hx, heq⟩ := map_eq_ok.1 hfirst
          cases heq
          obtain ⟨⟨z', o'⟩, hz, heq⟩ := map_eq_ok.1 hsecond
          cases heq
          by_cases hsame : step = next
          · -- both go on at one slot
            subst hsame
            rw [List.prefix_cons_inj] at hpq hqp
            have hrest : rest ≠ [] := fun h => hpq (h ▸ List.nil_prefix)
            have hbelow : below ≠ [] := fun h => hqp (h ▸ List.nil_prefix)
            have hkeeps := keeps_of_onPath hrest hx
            rw [Tree.slot_withSlot_of_keeps hkeeps] at hz
            obtain ⟨y', w', hy, hw, halike⟩ := ih hpq hqp (hnode.slot step) hx hz
            have hkeeps' := keeps_of_onPath hbelow hy
            refine ⟨.holds (node.withSlot step y'), .holds (node.withSlot step w'),
              map_eq_ok.2 ⟨_, hy, rfl⟩, map_eq_ok.2 ⟨(w', o), ?_, ?_⟩, ?_⟩
            · rw [Tree.slot_withSlot_of_keeps hkeeps', hw]
            · rw [Tree.withSlot_withSlot_of_keeps hkeeps' (keeps_of_onPath hrest hw)]
            · rw [Tree.withSlot_withSlot_of_keeps hkeeps (keeps_of_onPath hbelow hz)]
              exact .holds (hnode.withSlot halike step)
          · -- they part here: each finds its slot as it was
            rw [Tree.slot_withSlot_of_ne (Ne.symm hsame)] at hz
            refine ⟨.holds (node.withSlot next z'),
              .holds ((node.withSlot next z').withSlot step x'),
              map_eq_ok.2 ⟨_, hz, rfl⟩, map_eq_ok.2 ⟨(x', o), ?_, rfl⟩, .holds ?_⟩
            · rw [Tree.slot_withSlot_of_ne hsame, hx]
            · exact Tree.alike_withSlot_comm hnode (alike_self_of_onPath hb (hnode.slot next) hz)
                (alike_self_of_onPath ha (hnode.slot step) hx) hsame

/-! ### Runs -/

theorem AtSteps.ne_nil {a b : Operation} (ha : a.AtSteps path) (hab : a.Incomparable b) :
    path ≠ [] := by
  rintro rfl
  refine hab.1 ?_
  rw [ha.target]
  exact List.nil_prefix

theorem AtSteps.not_prefix {a b : Operation} {p q : List Step} (ha : a.AtSteps p)
    (hb : b.AtSteps q) (hab : a.Incomparable b) : ¬ p <+: q := by
  intro h
  refine hab.1 ?_
  rw [ha.target, hb.target]
  exact h.map Step.segment

/-- Two operations on a document may change places. -/
theorem run_swap {a b : Operation} {p q : List Step} (ha : a.AtSteps p) (hb : b.AtSteps q)
    (hab : a.Incomparable b) (haction : a.action.uniqueKeys) (hbction : b.action.uniqueKeys)
    (htree : tree.uniqueKeys) {mid after : Tree} {first second : Record}
    (hfirst : a.run .ignore tree = .ok (mid, first))
    (hsecond : b.run .ignore mid = .ok (after, second)) :
    ∃ mid' after', b.run .ignore tree = .ok (mid', second) ∧
      a.run .ignore mid' = .ok (after', first) ∧ after'.Alike after := by
  have hp := ha.ne_nil hab
  have hq := hb.ne_nil hab.symm
  obtain ⟨o, hx, rfl⟩ := (ha.run_ignore_eq_ok hp).1 hfirst
  obtain ⟨o', hz, rfl⟩ := (hb.run_ignore_eq_ok hq).1 hsecond
  obtain ⟨y, w, hy, hw, halike⟩ := onPath_swap haction hbction (ha.not_prefix hb hab)
    (hb.not_prefix ha hab.symm) (.holds (.refl htree)) hx hz
  cases halike with
  | @holds after' _ halike =>
    rcases keeps_of_onPath hq hy with rfl | ⟨_, mid', -, rfl⟩
    · exact ⟨tree, after', (hb.run_ignore_eq_ok hq).2 ⟨o', hy, rfl⟩,
        (ha.run_ignore_eq_ok hp).2 ⟨o, hw, rfl⟩, halike⟩
    · exact ⟨mid', after', (hb.run_ignore_eq_ok hq).2 ⟨o', hy, rfl⟩,
        (ha.run_ignore_eq_ok hp).2 ⟨o, hw, rfl⟩, halike⟩

/-- An operation ends alike on documents that are alike. -/
theorem AtSteps.exists_run_alike {root : Tree} (h : operation.AtSteps path)
    (haction : operation.action.uniqueKeys) (hroot : tree.Alike root)
    (hrun : operation.run .ignore tree = .ok (changed, record)) :
    ∃ changed', operation.run .ignore root = .ok (changed', record) ∧ changed.Alike changed' := by
  by_cases hpath : path = []
  · -- without a target only the guard counts
    have hact (root : Tree) : operation.act root = .error .noTarget := by
      have htarget : operation.target.segments = [] := by rw [h.target, hpath, List.map_nil]
      rw [act, Locator.splitLast?, htarget]
      rfl
    have hallowed : operation.allowed root = operation.allowed tree := by
      rw [allowed_eq, allowed_eq, h.target, hpath]
      simp
    rcases run_eq_ok_iff.1 hrun with ⟨hskip, rfl, rfl⟩ | ⟨-, hfound, -⟩ | ⟨-, hmissing, -⟩
    · exact ⟨root, run_eq_ok_iff.2 (.inl ⟨hallowed.trans hskip, rfl, rfl⟩), hroot⟩
    · rw [hact] at hfound
      cases hfound
    · rw [hact] at hmissing
      cases hmissing
  · obtain ⟨o, hx, rfl⟩ := (h.run_ignore_eq_ok hpath).1 hrun
    obtain ⟨y, hy, halike⟩ := onPath_alike haction (.holds hroot) hx
    cases halike with
    | @holds _ changed' halike =>
      exact ⟨changed', (h.run_ignore_eq_ok hpath).2 ⟨o, hy, rfl⟩, halike⟩

end Operation

/-- Operations that follow keys and positions to targets that are pairwise neither above nor below
each other, that drop no item of a sequence, and that put in no repeated key. -/
structure Separate (operations : List Operation) : Prop where
  atSteps : ∀ operation ∈ operations, ∃ path, operation.AtSteps path
  actions : ∀ operation ∈ operations, operation.action.uniqueKeys
  apart : operations.Pairwise Operation.Incomparable

variable {operations others : List Operation} {tree root after : Tree} {records : List Record}

theorem Separate.perm (h : Separate operations) (hperm : operations.Perm others) :
    Separate others where
  atSteps := fun operation hmem => h.atSteps operation (hperm.mem_iff.2 hmem)
  actions := fun operation hmem => h.actions operation (hperm.mem_iff.2 hmem)
  apart := (hperm.pairwise_iff fun hab => hab.symm).1 h.apart

theorem Separate.of_cons {operation : Operation} (h : Separate (operation :: operations)) :
    (∃ path, operation.AtSteps path) ∧ operation.action.uniqueKeys ∧
      (∀ other ∈ operations, operation.Incomparable other) ∧ Separate operations := by
  obtain ⟨hfirst, hsteps⟩ := List.forall_mem_cons.1 h.atSteps
  obtain ⟨haction, hactions⟩ := List.forall_mem_cons.1 h.actions
  obtain ⟨hothers, hapart⟩ := List.pairwise_cons.1 h.apart
  exact ⟨hfirst, haction, hothers, hsteps, hactions, hapart⟩

namespace Ran

/-- A run ends alike on documents that are alike. -/
theorem exists_alike (hran : Ran .ignore operations tree records after)
    (hseparate : Separate operations) (hroot : tree.Alike root) :
    ∃ after', Ran .ignore operations root records after' ∧ after.Alike after' := by
  induction hran generalizing root with
  | nil => exact ⟨root, .nil root, hroot⟩
  | cons hrun _ ih =>
    obtain ⟨⟨_, hfirst⟩, haction, -, hmore⟩ := hseparate.of_cons
    obtain ⟨changed', hrun', hchanged⟩ := hfirst.exists_run_alike haction hroot hrun
    obtain ⟨after', hran', hafter⟩ := ih hmore hchanged
    exact ⟨after', .cons hrun' hran', hafter⟩

/-- **Each operation ends as it would alone.** -/
theorem records_alone (hran : Ran .ignore operations tree records after)
    (hseparate : Separate operations) (htree : tree.uniqueKeys) :
    List.Forall₂ (fun operation record => ∃ alone, operation.run .ignore tree = .ok (alone, record))
      operations records := by
  induction hran with
  | nil => exact .nil
  | @cons operation more tree changed after record records hrun hmore ih =>
    obtain ⟨⟨_, hfirst⟩, haction, hapart, hseparate⟩ := hseparate.of_cons
    have hchanged := Operation.uniqueKeys_of_run haction htree hrun
    refine .cons ⟨changed, hrun⟩ (List.forall₂_iff_zip.2 ?_)
    obtain ⟨hlength, hlater⟩ := List.forall₂_iff_zip.1 (ih hseparate hchanged)
    refine ⟨hlength, fun {other found} hmem => ?_⟩
    -- what ends well after the first operation does so before it
    have hother := (List.of_mem_zip hmem).1
    obtain ⟨path, hpath⟩ := hseparate.atSteps other hother
    obtain ⟨alone, halone⟩ := hlater hmem
    obtain ⟨alone', -, halone', -⟩ := Operation.run_swap hfirst hpath (hapart other hother)
      haction (hseparate.actions other hother) htree hrun halone
    exact ⟨alone', halone'⟩

/-- Operations in another order leave the like. -/
theorem exists_perm (hran : Ran .ignore operations tree records after)
    (hperm : operations.Perm others) (hseparate : Separate operations) (htree : tree.uniqueKeys) :
    ∃ records' after', Ran .ignore others tree records' after' ∧ after'.Alike after := by
  induction hperm generalizing tree records after with
  | nil =>
    cases hran
    exact ⟨[], tree, .nil tree, .refl htree⟩
  | cons operation _ ih =>
    obtain ⟨-, haction, -, hmore⟩ := hseparate.of_cons
    cases hran with
    | cons hrun hran =>
      obtain ⟨records', after', hran', halike⟩ :=
        ih hran hmore (Operation.uniqueKeys_of_run haction htree hrun)
      exact ⟨_, after', .cons hrun hran', halike⟩
  | swap a b more =>
    obtain ⟨⟨q, hb⟩, hbction, hapart, hseparate⟩ := hseparate.of_cons
    obtain ⟨⟨p, ha⟩, haction, -, hmore⟩ := hseparate.of_cons
    cases hran with
    | cons hfirst hran =>
      cases hran with
      | cons hsecond hran =>
        obtain ⟨mid', after', hfirst', hsecond', halike⟩ := Operation.run_swap hb ha
          (hapart a (List.mem_cons_self ..)) hbction haction htree hfirst hsecond
        obtain ⟨final, hran', hfinal⟩ := hran.exists_alike hmore halike.symm
        exact ⟨_, final, .cons hfirst' (.cons hsecond' hran'), hfinal.symm⟩
  | trans hfirst _ ih ih' =>
    obtain ⟨_, mid, hmid, halike⟩ := ih hran hseparate htree
    obtain ⟨records', after', hran', halike'⟩ := ih' hmid (hseparate.perm hfirst) htree
    exact ⟨records', after', hran', halike'.trans halike⟩

end Ran

/-- The outcome of an operation by itself. -/
def Operation.outcomeOn (operation : Operation) (tree : Tree) : Outcome :=
  match operation.run .ignore tree with
  | .ok (_, record) => record.outcome
  | .error _ => .skipped

theorem Operation.record_outcomeOn {operation : Operation} {changed : Tree} {record : Record}
    (h : operation.run .ignore tree = .ok (changed, record)) :
    operation.record (operation.outcomeOn tree) = record := by
  rw [outcomeOn, h]
  rcases run_eq_ok_iff.1 h with ⟨-, -, rfl⟩ | ⟨-, -, rfl⟩ | ⟨-, -, -, -, rfl⟩ <;> rfl

theorem Ran.records_eq_map (hran : Ran .ignore operations tree records after)
    (hseparate : Separate operations) (htree : tree.uniqueKeys) :
    records = operations.map fun operation => operation.record (operation.outcomeOn tree) := by
  have hall := hran.records_alone hseparate htree
  clear hran hseparate
  induction hall with
  | nil => rfl
  | cons hfirst _ ih =>
    obtain ⟨alone, halone⟩ := hfirst
    rw [List.map_cons, Operation.record_outcomeOn halone, ← ih]

/-- **Independent operations commute.** A run that ends well where missing targets are passed over
ends well in every order of its operations, if these follow keys and positions to targets none of
which is above or below another, and drop no item of a sequence. The tree is the same document, and
each operation has the outcome that it had. -/
theorem applyPatch_perm {report : Report} (htree : tree.uniqueKeys)
    (hactions : ∀ operation ∈ operations, operation.action.uniqueKeys)
    (hsteps : ∀ operation ∈ operations, ∃ path : List Step,
      operation.target.segments = path.map Step.segment)
    (hkeeps : ∀ operation ∈ operations, operation.action = .remove →
      ∀ position, operation.target.segments.getLast? ≠ some (.index position))
    (hapart : operations.Pairwise fun a b =>
      ¬ a.target.segments <+: b.target.segments ∧ ¬ b.target.segments <+: a.target.segments)
    (hrun : applyPatch .ignore operations tree = ⟨after, .ok report⟩) :
    ∃ outcome : Operation → Outcome,
      report.records = operations.map (fun operation => operation.record (outcome operation)) ∧
      ∀ others : List Operation, others.Perm operations → ∃ after',
        applyPatch .ignore others tree =
          ⟨after', .ok ⟨others.map fun operation => operation.record (outcome operation)⟩⟩ ∧
        after'.same after := by
  have hseparate : Separate operations := by
    refine ⟨fun operation hmem => ?_, hactions, hapart⟩
    obtain ⟨path, htarget⟩ := hsteps operation hmem
    refine ⟨path, htarget, fun hremove position hlast => hkeeps operation hmem hremove position ?_⟩
    rw [htarget, List.getLast?_map, hlast]
    rfl
  have hran := applyPatch_eq_ok.1 hrun
  refine ⟨fun operation => operation.outcomeOn tree, hran.records_eq_map hseparate htree, ?_⟩
  intro others hperm
  obtain ⟨records', after', hran', halike⟩ := hran.exists_perm hperm.symm hseparate htree
  refine ⟨after', ?_, halike.same⟩
  rw [← hran'.records_eq_map (hseparate.perm hperm.symm) htree]
  exact applyPatch_eq_ok.2 hran'

/-- A name, two ports and a mark. -/
def portSettings : Tree :=
  .mapping [(.text "name", .text "web-quay"),
    (.text "ports", .sequence [.text "80", .mapping [(.text "number", .text "81")]]),
    (.text "draft", .bool true)]

/-- Operations of all kinds, one of which misses its target. -/
def portPatch : List Operation :=
  let port (position : Nat) (name : String) : Locator :=
    ⟨[.key "ports", .index position, .key name]⟩
  [.remove ⟨[.key "draft"]⟩, ⟨⟨[.key "replicas"]⟩, .set (.int 2), some .ifAbsent⟩,
    .replace ⟨[.key "name"]⟩ "quay" "clair", .setText ⟨[.key "ports", .index 0]⟩ "8080",
    .setText (port 1 "scheme") "http", .setText (port 2 "scheme") "http",
    ⟨port 1 "number", .remove, some .ifPresent⟩]

theorem applyPatch_perm_portPatch :
    ∃ after report, applyPatch .ignore portPatch portSettings = ⟨after, .ok report⟩ ∧
      ∃ outcome : Operation → Outcome,
        report.records = portPatch.map (fun operation => operation.record (outcome operation)) ∧
        ∃ after', applyPatch .ignore portPatch.reverse portSettings =
            ⟨after', .ok ⟨portPatch.reverse.map fun operation =>
              operation.record (outcome operation)⟩⟩ ∧
          after'.same after := by
  have hrun : applyPatch .ignore portPatch portSettings = ⟨_, .ok _⟩ := rfl
  have hsteps : ∀ operation ∈ portPatch, ∃ path : List Step,
      operation.target.segments = path.map Step.segment := by
    simp only [portPatch, List.forall_mem_cons, List.not_mem_nil, false_implies, implies_true,
      and_true]
    exact ⟨⟨[.key "draft"], rfl⟩, ⟨[.key "replicas"], rfl⟩, ⟨[.key "name"], rfl⟩,
      ⟨[.key "ports", .index 0], rfl⟩, ⟨[.key "ports", .index 1, .key "scheme"], rfl⟩,
      ⟨[.key "ports", .index 2, .key "scheme"], rfl⟩,
      ⟨[.key "ports", .index 1, .key "number"], rfl⟩⟩
  have hkeeps : ∀ operation ∈ portPatch, operation.action = .remove →
      ∀ position, operation.target.segments.getLast? ≠ some (.index position) := by
    simp [portPatch, Operation.remove, Operation.setText, Operation.set, Operation.replace]
  obtain ⟨outcome, hrecords, hothers⟩ := applyPatch_perm (by decide) (by decide) hsteps hkeeps
    (by decide) hrun
  obtain ⟨after', hafter', hsame⟩ := hothers portPatch.reverse (List.reverse_perm _)
  exact ⟨_, _, hrun, outcome, hrecords, after', hafter', hsame⟩

/-- Where an item of a sequence is dropped, the order counts. -/
example :
    let operations : List Operation :=
      [.remove ⟨[.key "ports", .index 0]⟩, .setText ⟨[.key "ports", .index 1]⟩ "443"]
    (applyPatch .ignore operations portSettings).tree.same
      (applyPatch .ignore operations.reverse portSettings).tree = false := by decide

end OperatorBundle
