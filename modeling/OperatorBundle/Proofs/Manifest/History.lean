import OperatorBundle.Proofs.Manifest.Reload
import OperatorBundle.Proofs.Patch.DistinctKeys
import OperatorBundle.Proofs.Tree.Identity

/-!
What a manifest goes through. Patches and edits keep the text that it was read from, and only a
reload takes up another. Whatever came before, the source says what it stands for and no key is
repeated; so a manifest without a net change has the text of its source, and a text that is given
out reads back as the manifest.
-/

namespace OperatorBundle

/-- Operations that are not applied leave the tree as it is. -/
theorem Ran.eq_of_not_applied {policy : Policy} {operations : List Operation} {tree after : Tree}
    {records : List Record} (h : Ran policy operations tree records after)
    (hnone : ∀ record ∈ records, record.outcome ≠ .applied) : after = tree := by
  induction h with
  | nil => rfl
  | cons hrun _ ih =>
    obtain ⟨hfirst, hmore⟩ := List.forall_mem_cons.1 hnone
    rcases Operation.run_cases hrun with ⟨-, rfl⟩ | ⟨rfl, -⟩
    · exact absurd rfl hfirst
    · exact ih hmore

namespace Manifest

/-- What is done with a manifest: it is patched, its tree is overwritten, its text is taken, or it
is read again from its text. -/
inductive Event
  | patch (policy : Policy) (operations : List Operation)
  | overwrite (root : Tree)
  | dump
  | reload

/-- Whether what is put in by an event repeats no key. -/
def Event.uniqueKeys : Event → Bool
  | .patch _ operations => operations.all fun operation => operation.action.uniqueKeys
  | .overwrite root => root.uniqueKeys
  | .dump | .reload => true

/-- The manifest after an event. Where there is no text, or none that can be read, it stays. -/
def afterEvent (manifest : Manifest) : Event → Manifest
  | .patch policy operations => (manifest.patch policy operations).1
  | .overwrite root => { manifest with root }
  | .dump => manifest
  | .reload =>
    match manifest.toYaml with
    | .error _ => manifest
    | .ok text =>
      match ofYaml text with
      | .error _ => manifest
      | .ok again => again

/-- The manifest after events, in order. -/
def after (manifest : Manifest) (events : List Event) : Manifest :=
  events.foldl afterEvent manifest

/-- What holds of a manifest at all times: no key is repeated, and the source stands for what its
text says. -/
structure Sound (manifest : Manifest) : Prop where
  uniqueKeys : manifest.root.uniqueKeys
  source : ∀ source, manifest.source = some source → Tree.ofYaml source.text = .ok source.tree

variable {manifest : Manifest} {text : String}

theorem sound_ofYaml (h : ofYaml text = .ok manifest) : manifest.Sound := by
  obtain ⟨tree, htree, rfl⟩ := ofYaml_eq_ok.1 h
  refine ⟨Tree.uniqueKeys_of_ofYaml htree, ?_⟩
  rintro source hsource
  obtain rfl := Option.some.inj hsource
  exact htree

theorem sound_of_source_eq_none (hsource : manifest.source = none)
    (hroot : manifest.root.uniqueKeys) : manifest.Sound :=
  ⟨hroot, by simp [hsource]⟩

theorem Sound.patch (h : manifest.Sound) {operations : List Operation}
    (hactions : ∀ operation ∈ operations, operation.action.uniqueKeys) (policy : Policy) :
    (manifest.patch policy operations).1.Sound :=
  ⟨uniqueKeys_patch hactions h.uniqueKeys policy, h.source⟩

/-- Every event keeps a manifest sound. -/
theorem Sound.afterEvent (h : manifest.Sound) {event : Event} (hevent : event.uniqueKeys) :
    (manifest.afterEvent event).Sound := by
  cases event with
  | patch policy operations => exact h.patch (List.all_eq_true.1 hevent) policy
  | overwrite root => exact ⟨hevent, h.source⟩
  | dump => exact h
  | reload =>
    unfold Manifest.afterEvent
    cases manifest.toYaml with
    | error e => exact h
    | ok text =>
      cases hread : ofYaml text with
      | error e => simpa [hread] using h
      | ok again => simpa [hread] using sound_ofYaml hread

/-- **Whatever is done with a manifest, it stays sound.** -/
theorem Sound.after (h : manifest.Sound) {events : List Event}
    (hevents : ∀ event ∈ events, event.uniqueKeys) : (manifest.after events).Sound := by
  induction events generalizing manifest with
  | nil => exact h
  | cons event more ih =>
    obtain ⟨hevent, hmore⟩ := List.forall_mem_cons.1 hevents
    exact ih (h.afterEvent hevent) hmore

/-! ### Without a net change -/

/-- A sound manifest that says what its source says has the text of its source. -/
theorem Sound.toYaml_of_same (h : manifest.Sound) {source : Source}
    (hsource : manifest.source = some source) (hsame : source.tree.same manifest.root) :
    manifest.toYaml = .ok source.text :=
  Manifest.toYaml_of_same hsource (h.source source hsource) hsame

/-- A sound manifest whose text reads back is like what is read. -/
theorem Sound.exists_reloaded (h : manifest.Sound) (hback : manifest.ReadsBack)
    (htext : manifest.toYaml = .ok text) :
    ∃ again, ofYaml text = .ok again ∧ again.root.Alike manifest.root := by
  obtain ⟨found, hfound, hsame⟩ := readsAs_iff.1 (readsAs_of_toYaml hback htext)
  refine ⟨⟨found, some ⟨text, found⟩⟩, ofYaml_eq_ok.2 ⟨found, hfound, rfl⟩, ?_⟩
  exact ⟨Tree.uniqueKeys_of_ofYaml hfound, h.uniqueKeys, hsame⟩

/-- A manifest with the source of one that was just read, and like it, has the text of both. -/
theorem toYaml_of_ofYaml {changed : Manifest} (h : ofYaml text = .ok manifest)
    (hsource : changed.source = manifest.source) (hsame : manifest.same changed) :
    changed.toYaml = .ok text := by
  obtain ⟨tree, htree, rfl⟩ := ofYaml_eq_ok.1 h
  exact Manifest.toYaml_of_same hsource htree hsame

/-- **No net change, no byte changed**: a manifest that was read from a text has that text until
its tree says something else, whatever patches and edits have come in between; and so has one that
is read from a text that a manifest gave out. -/
theorem toYaml_of_no_change (h : ofYaml text = .ok manifest) :
    manifest.toYaml = .ok text ∧
    (∀ policy operations, manifest.same (manifest.patch policy operations).1 →
      (manifest.patch policy operations).1.toYaml = .ok text) ∧
    (∀ policy operations report, (manifest.patch policy operations).2 = .ok report →
      (∀ record ∈ report.records, record.outcome ≠ .applied) →
      (manifest.patch policy operations).1.toYaml = .ok text) ∧
    (∀ events source, (∀ event ∈ events, event.uniqueKeys) →
      (manifest.after events).source = some source →
      source.tree.same (manifest.after events).root →
      (manifest.after events).toYaml = .ok source.text) ∧
    ∀ (other : Manifest) dumped again, other.toYaml = .ok dumped → ofYaml dumped = .ok again →
      again.toYaml = other.toYaml := by
  have hself : manifest.same manifest := Tree.same_self (uniqueKeys_of_ofYaml h)
  refine ⟨toYaml_of_ofYaml h rfl hself, ?_, ?_, ?_, ?_⟩
  · intro policy operations hsame
    exact toYaml_of_ofYaml h rfl hsame
  · intro policy operations report hreport hnone
    have hran := (patch_eq_ok.1 (Prod.ext rfl hreport)).1
    refine toYaml_of_ofYaml h rfl ?_
    rw [same, hran.eq_of_not_applied hnone]
    exact hself
  · intro events source hevents hsource hsame
    exact ((sound_ofYaml h).after hevents).toYaml_of_same hsource hsame
  · intro other dumped again hdumped hagain
    rw [hdumped]
    exact toYaml_of_ofYaml hagain rfl (Tree.same_self (uniqueKeys_of_ofYaml hagain))

/-- A text with a flow mapping, a carriage return, quotes, and no newline at its end. -/
def inlineText : String := "a: {b: 1} # c\r\nd: 'e'"

/-- A string that is set to what it was keeps its quotes. -/
theorem toYaml_of_no_change_inline :
    ∃ manifest, ofYaml inlineText = .ok manifest ∧
      (manifest.patch .fail [.setText (.path "d") "f", .setText (.path "d") "e"]).1.toYaml =
        .ok inlineText := by
  have hread : Tree.ofYaml inlineText =
      .ok (.mapping [(.text "a", .mapping [(.text "b", .int 1)]), (.text "d", .text "e")]) := by
    decide +kernel
  have hmanifest := ofYaml_eq_ok.2 ⟨_, hread, rfl⟩
  exact ⟨_, hmanifest, (toYaml_of_no_change hmanifest).2.1 _ _ rfl⟩

end Manifest

end OperatorBundle
