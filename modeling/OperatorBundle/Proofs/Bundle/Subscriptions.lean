import Mathlib.Data.List.Pairwise
import Mathlib.Logic.Function.Basic
import OperatorBundle.Proofs.Bundle.EndState
import OperatorBundle.Proofs.Json.RoundTrip

/-!
The subscriptions that allow a bundle, as the annotation on them writes them. The list is laid out
as neither written form of a JSON document is, but its tokens are those of an array of strings; so a
JSON reader gets the subscriptions back, whatever characters they are made of.

* `ofText?_listText`: the annotation's text is read as the array of the subscriptions.
* `subscriptions_read_back`: this holds of what every patch of a service version writes there.
-/

namespace OperatorBundle.Bundle

open OperatorBundle.Json

/-- The array of some texts. -/
def textArray (texts : List String) : Json := .array (texts.map .string)

/-- Some texts as a JSON list with a space after each comma. -/
def listText (texts : List String) : List Char :=
  '[' :: (separated [',', ' '] (texts.map stringText) ++ [']'])

theorem subscriptionList_eq (settings : Settings) :
    subscriptionList settings = String.ofList (listText settings.validSubscriptions) := rfl

theorem proper_textArray (texts : List String) : (textArray texts).Proper := by
  refine .array fun json hjson => ?_
  obtain ⟨text, -, rfl⟩ := List.mem_map.1 hjson
  exact .string text

/-- A list of texts has the tokens of their array: the blanks in it stand between tokens. -/
theorem hasTokens_listText (texts : List String) :
    HasTokens (listText texts) (textArray texts).tokens := by
  have hblank : SplitsOff [' '] [] := splitsOff_spaces (List.all_eq_true.1 rfl)
  rw [textArray, tokens, itemTokens_eq, List.map_map]
  refine hasTokens_enclosed rfl rfl splitsOff_nil splitsOff_nil (endsWord_cons rfl _) hblank ?_
  rw [List.forall₂_map_left_iff, List.forall₂_map_right_iff, List.forall₂_same]
  exact fun text _ => (splitsOff_stringText text).hasTokens

/-- **A list of texts is read as their array.** -/
theorem ofText?_listText (texts : List String) :
    ofText? (String.ofList (listText texts)) = some (textArray texts) := by
  have hread := ofText?_of_hasTokens (proper_textArray texts) (hasTokens_listText texts)
    (by simp [EndsWord]) splitsOff_nil
  rwa [List.append_nil] at hread

theorem textArray_injective : Function.Injective textArray := by
  intro texts others h
  have hstring : Function.Injective Json.string := fun _ _ => Json.string.inj
  exact hstring.list_map (Json.array.inj h)

/-! ### The annotation -/

/-- The place of the annotation on subscriptions. -/
def subscriptionMark : Locator := versionMark "operators.openshift.io/valid-subscription"

section Patches

variable {inputs : ReleaseInputs} {settings : Settings} {operations : List Operation}

theorem mem_serviceVersionPatch (h : serviceVersionPatch inputs settings = .ok operations) :
    .setText subscriptionMark (subscriptionList settings) ∈ operations := by
  obtain ⟨stamps, -, rfl⟩ := serviceVersionPatch_eq_ok.1 h
  refine List.mem_append_left _ ?_
  simp [releaseOperations, subscriptionMark]

/-- No other operation of the patch is on the annotation, since their targets part. -/
theorem eq_of_target_eq_subscriptionMark {operation : Operation}
    (h : serviceVersionPatch inputs settings = .ok operations) (hmem : operation ∈ operations)
    (htarget : operation.target = subscriptionMark) :
    operation = .setText subscriptionMark (subscriptionList settings) := by
  by_contra hne
  have : Std.Symm Operation.Apart := ⟨fun _ _ => Operation.Apart.symm⟩
  have hparts : parts operation.target.segments subscriptionMark.segments :=
    (independent_serviceVersionPatch h).apart.forall hmem (mem_serviceVersionPatch h) hne
  rw [htarget] at hparts
  exact absurd hparts (by decide)

end Patches

/-- **The annotation on subscriptions is a faithful list.** Its text is read as the array of the
subscriptions, in order, whatever they are made of; so settings that give one text have the same
subscriptions. Every patch of a service version writes this text there, and nothing else there; and
after a patch that ends well where no target may be missing, the annotation is read so. -/
theorem subscriptions_read_back :
    (∀ settings : Settings, ofText? (subscriptionList settings) =
      some (.array (settings.validSubscriptions.map .string))) ∧
    (∀ settings others : Settings, subscriptionList settings = subscriptionList others →
      settings.validSubscriptions = others.validSubscriptions) ∧
    ∀ inputs settings operations, serviceVersionPatch inputs settings = .ok operations →
      .setText subscriptionMark (subscriptionList settings) ∈ operations ∧
      (∀ operation ∈ operations, operation.target = subscriptionMark →
        operation = .setText subscriptionMark (subscriptionList settings)) ∧
      ∀ before after report, Manifest.patch before .fail operations = (after, .ok report) →
        ∃ text, after.get? subscriptionMark = some (.text text) ∧
          ofText? text = some (.array (settings.validSubscriptions.map .string)) := by
  have hread (settings : Settings) : ofText? (subscriptionList settings) =
      some (textArray settings.validSubscriptions) := by
    rw [subscriptionList_eq, ofText?_listText]
  refine ⟨hread, ?_, ?_⟩
  · intro settings others h
    have hboth := (hread settings).symm.trans (h ▸ hread others)
    exact textArray_injective (Option.some.inj hboth)
  · intro inputs settings operations h
    have hmem := mem_serviceVersionPatch h
    refine ⟨hmem, fun operation => eq_of_target_eq_subscriptionMark h, ?_⟩
    intro before after report hpatch
    obtain ⟨hran, -⟩ := Manifest.patch_eq_ok.1 hpatch
    exact ⟨_, hran.resolve?_set (independent_serviceVersionPatch h) hmem, hread settings⟩

/-- Settings with subscriptions that hold the marks of a list. -/
def markedSettings : Settings :=
  { Settings.standard with validSubscriptions := ["\", \"", "]", "", "\\\n\x01é"] }

theorem subscriptions_read_back_marked :
    ∃ operations after report text,
      serviceVersionPatch sampleInputs markedSettings = .ok operations ∧
      (Manifest.ofTree sample).patch .fail operations = (after, .ok report) ∧
      after.get? subscriptionMark = some (.text text) ∧
      ofText? text = some (.array [.string "\", \"", .string "]", .string "",
        .string "\\\n\x01é"]) := by
  obtain ⟨operations, hset, hends⟩ : ∃ operations,
      serviceVersionPatch sampleInputs markedSettings = .ok operations ∧
      ((Manifest.ofTree sample).patch .fail operations).2.isOk := ⟨_, rfl, by decide +kernel⟩
  obtain ⟨-, -, hpatches⟩ := subscriptions_read_back
  cases hpatch : (Manifest.ofTree sample).patch .fail operations with
  | mk after result =>
    rw [hpatch] at hends
    cases result with
    | error error => cases hends
    | ok report =>
      obtain ⟨-, -, hafter⟩ := hpatches _ _ _ hset
      obtain ⟨text, htext, hread⟩ := hafter _ _ _ hpatch
      exact ⟨operations, after, report, text, hset, hpatch, htext, hread⟩

end OperatorBundle.Bundle
