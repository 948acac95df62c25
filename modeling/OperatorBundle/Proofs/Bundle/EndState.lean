import OperatorBundle.Manifest
import OperatorBundle.Proofs.Bundle.Independence
import OperatorBundle.Proofs.Patch.NamedValues

/-!
What a service version says after its patch, all of it applied. The deployment that is renamed is
the one that the operations after it look up, since it is still named after the operator and those
before it are not.
-/

namespace OperatorBundle.Bundle

open OperatorBundle.Text

/-- The first item of a list that a condition accepts, and the one in its place in another list that
is otherwise the same. -/
structure Renewed (selector : Selector) (before after : Tree) (old new : Tree) : Prop where
  place : ∃ pre post, before.items? = some (pre ++ old :: post) ∧
    after.items? = some (pre ++ new :: post) ∧ ∀ item ∈ pre, selector.accepts item = false
  old_accepted : selector.accepts old
  new_accepted : selector.accepts new

/-- The container of the operator after the patch. -/
structure RenewedContainer (inputs : ReleaseInputs) (settings : Settings) (old new : Tree) :
    Prop where
  image : new.field? "image" = some (.text inputs.operatorImage)
  /-- Each variable is in its place, with a value put in if the release has one for its name. -/
  env : ∃ before after items, old.field? "env" = some before ∧ before.items? = some items ∧
    new.field? "env" = some after ∧ after.items? =
      some (items.map (Tree.withNamedValue "name" "value" (containerVariables settings inputs)))
  values : ∀ env items, new.field? "env" = some env → env.items? = some items →
    ∀ item ∈ items, ∀ name value, item.nameAt? "name" = some name →
      (containerVariables settings inputs).lookup name = some value →
      item.field? "value" = some (.text value)

/-- The deployment of the operator after the patch, and the container in it. -/
structure RenewedDeployment (inputs : ReleaseInputs) (settings : Settings)
    (before after old new : Tree) : Prop where
  name : new.field? "name" = some (.text (bundleName settings inputs.currentVersion))
  container : ∃ containers containers' container container',
    old.resolve? containersPath = some containers ∧
    new.resolve? containersPath = some containers' ∧
    Renewed (operatorNamed settings) containers containers' container container' ∧
    before.resolve? (operatorContainer settings).segments = some container ∧
    after.resolve? (operatorContainer settings).segments = some container' ∧
    RenewedContainer inputs settings container container'

/-- What a service version says after the patch. -/
structure EndState (inputs : ReleaseInputs) (settings : Settings) (before after : Manifest) :
    Prop where
  name : after.get? (.path "metadata.name") =
    some (.text (settings.operatorName ++ ".v" ++ inputs.currentVersion))
  version : after.get? (.path "spec.version") = some (.text inputs.currentVersion)
  maintainers : after.get? (.path "spec.maintainers") = some (maintainers settings)
  icon : after.get? (((Locator.path "spec.icon").index 0).key "mediatype") =
    some (.text "image/svg+xml")
  description : after.get? (.path "spec.description") = some (.text description)
  displayName : after.get? (.path "spec.displayName") = some (.text settings.displayName)
  /-- The first release of a minor version replaces none. -/
  replaces_first : inputs.release.patch = 0 → after.get? (.path "spec.replaces") = none
  replaces_later : ∀ patch, inputs.release.patch = patch + 1 →
    after.get? (.path "spec.replaces") =
      some (.text (settings.operatorName ++ ".v" ++ Release.number inputs.release.major ++ "." ++
        Release.number inputs.release.minor ++ "." ++ Release.number patch))
  skipRange : after.get? (versionMark "olm.skipRange") =
    some (.text (">=" ++ Release.number inputs.release.major ++ "." ++
      Release.number (inputs.release.minor - 3) ++ ".x <" ++ inputs.currentVersion))
  containerImage : after.get? (versionMark "containerImage") = some (.text inputs.operatorImage)
  quayVersion : after.get? (versionMark "quay-version") = some (.text inputs.fullVersion)
  subscriptions : after.get? (versionMark "operators.openshift.io/valid-subscription") =
    some (.text (subscriptionList settings))
  createdAt : settings.stampCreatedAt → ∃ seconds text, inputs.timestamp = some seconds ∧
    timeStamp? seconds = some text ∧ after.get? (versionMark "createdAt") = some (.text text)
  brand : ∃ found text, before.get? (versionMark "description") = some found ∧
    found.text? = some text ∧
    after.get? (versionMark "description") =
      some (.text (String.ofList (replaceAll "Quay".toList "Red Hat".toList text.toList))) ∧
    occursIn "Quay".toList (replaceAll "Quay".toList "Red Hat".toList text.toList) = false
  deployment : ∃ deployments deployments' deployment deployment',
    before.get? (.path "spec.install.spec.deployments") = some deployments ∧
    after.get? (.path "spec.install.spec.deployments") = some deployments' ∧
    Renewed (operatorNamed settings) deployments deployments' deployment deployment' ∧
    before.get? (operatorDeployment settings) = some deployment ∧
    after.get? (operatorDeployment settings) = some deployment' ∧
    RenewedDeployment inputs settings before.root after.root deployment deployment'

/-! ### Texts -/

theorem replaced_later {inputs : ReleaseInputs} {settings : Settings} {patch : Nat}
    (h : inputs.release.patch = patch + 1) :
    replaced settings inputs = .setText (.path "spec.replaces")
      (settings.operatorName ++ ".v" ++ Release.number inputs.release.major ++ "." ++
        Release.number inputs.release.minor ++ "." ++ Release.number patch) := by
  have hprevious : inputs.release.previous? = some { inputs.release with patch } := by
    rw [Release.previous?, h]
  simp only [replaced, hprevious, bundleName, Release.text, String.append_assoc]

theorem replaced_first {inputs : ReleaseInputs} {settings : Settings}
    (h : inputs.release.patch = 0) :
    replaced settings inputs = .remove (.path "spec.replaces") := by
  have hprevious : inputs.release.previous? = none := by rw [Release.previous?, h]
  simp only [replaced, hprevious]

theorem skipRange_eq (inputs : ReleaseInputs) :
    skipRange inputs = ">=" ++ Release.number inputs.release.major ++ "." ++
      Release.number (inputs.release.minor - 3) ++ ".x <" ++ inputs.currentVersion := by
  have hjoin : ".x <" = ".x" ++ " <" := rfl
  simp only [skipRange, Release.skipRangeFloor, Release.skippedMinors, hjoin, String.append_assoc]

/-! ### The run -/

variable {inputs : ReleaseInputs} {settings : Settings} {stamps : List Operation}
  {tree after : Tree} {records : List Record}

/-- The deployments before and after the run. -/
theorem deployment_fallsOnOne (hstamp : stamp settings inputs = .ok stamps)
    (hran : Ran .fail (releaseOperations inputs settings stamps ++
      deploymentOperations inputs settings) tree records after) :
    Tree.FallsOnOne (operatorNamed settings) deploymentsPath tree after := by
  refine hran.fallsOnOne (by simp [deploymentOperations]) ?_ ?_ ?_
  · exact fun operation hmem =>
      Operation.exists_atKey_of_isDirect (isDirect_releaseOperations hstamp operation hmem)
  · intro operation hmem
    rw [parts_comm]
    exact parts_deployments hstamp operation hmem
  · intro operation hmem
    simp only [deploymentOperations, List.mem_cons, List.not_mem_nil, or_false] at hmem
    rcases hmem with rfl | rfl | rfl
    · exact ⟨[], "name", atKey_deployment_name settings inputs.currentVersion⟩
    · exact ⟨containersPath ++ [Segment.find (operatorNamed settings)], "image",
        atKey_image inputs settings⟩
    · exact ⟨containersPath ++ [Segment.find (operatorNamed settings)], "env",
        atKey_env inputs settings⟩

/-- The containers before and after the run. -/
theorem container_fallsOnOne (hstamp : stamp settings inputs = .ok stamps)
    (hran : Ran .fail (releaseOperations inputs settings stamps ++
      deploymentOperations inputs settings) tree records after) :
    Tree.FallsOnOne (operatorNamed settings)
      (deploymentsPath ++ .find (operatorNamed settings) :: containersPath) tree after := by
  -- the deployment is renamed first, on a path that does not go below it
  rw [deploymentOperations, ← List.singleton_append, ← List.append_assoc] at hran
  refine hran.fallsOnOne (by simp) ?_ ?_ ?_
  · intro operation hmem
    rcases List.mem_append.1 hmem with hmem | hmem
    · exact Operation.exists_atKey_of_isDirect (isDirect_releaseOperations hstamp operation hmem)
    · obtain rfl := List.mem_singleton.1 hmem
      exact ⟨_, _, atKey_deployment_name settings inputs.currentVersion⟩
  · intro operation hmem
    rcases List.mem_append.1 hmem with hmem | hmem
    · rw [parts_comm]
      exact parts_append (parts_deployments hstamp operation hmem) _
    · obtain rfl := List.mem_singleton.1 hmem
      simp [Operation.setText, Operation.set, Locator.key, Locator.below,
        segments_operatorDeployment, deploymentsPath, containersPath, parts]
  · intro operation hmem
    simp only [List.mem_cons, List.not_mem_nil, or_false] at hmem
    rcases hmem with rfl | rfl
    · exact ⟨[], "image", atKey_image inputs settings⟩
    · exact ⟨[], "env", atKey_env inputs settings⟩

/-- What is found below the item that a condition falls on. -/
theorem renewed_of_picks {selector : Selector} {old new c d : Tree} {pre post : List Tree}
    (hold : old.items? = some (pre ++ c :: post)) (hnew : new.items? = some (pre ++ d :: post))
    (hpicks : (Segment.find selector).picks pre c)
    (hstill : (Segment.find selector).picks pre d) : Renewed selector old new c d where
  place := ⟨pre, post, hold, hnew, hpicks.2⟩
  old_accepted := hpicks.1
  new_accepted := hstill.1

theorem resolve?_below {tree list item : Tree} {path : List Segment} {selector : Selector}
    {pre post : List Tree} (hlist : tree.resolve? path = some list)
    (hitems : list.items? = some (pre ++ item :: post))
    (hpicks : (Segment.find selector).picks pre item) (below : List Segment) :
    tree.resolve? (path ++ .find selector :: below) = item.resolve? below := by
  rw [Tree.resolve?_append, hlist, Option.bind_some, Tree.resolve?_cons,
    Tree.child?_of_picks hitems hpicks, Option.bind_some]

section Run

variable (hstamp : stamp settings inputs = .ok stamps)
  (hran : Ran .fail (releaseOperations inputs settings stamps ++
    deploymentOperations inputs settings) tree records after)
  (hind : Independent (releaseOperations inputs settings stamps ++
    deploymentOperations inputs settings))
include hran hind

/-- No mention of the upstream brand is left in the description among the annotations. -/
theorem exists_brand :
    ∃ found text, tree.resolve? (versionMark "description").segments = some found ∧
      found.text? = some text ∧
      after.resolve? (versionMark "description").segments =
        some (.text (String.ofList (replaceAll "Quay".toList "Red Hat".toList text.toList))) ∧
      occursIn "Quay".toList (replaceAll "Quay".toList "Red Hat".toList text.toList) = false := by
  have hmem : Operation.replace (versionMark "description") "Quay" "Red Hat" ∈
      releaseOperations inputs settings stamps := by simp [releaseOperations]
  obtain ⟨found, text, hfound, htext, hafter⟩ :=
    hran.resolve?_replace hind (List.mem_append_left _ hmem)
  exact ⟨found, text, hfound, htext, hafter, occursIn_quay text.toList⟩

theorem renewedContainer {old new : Tree}
    (hold : tree.resolve? (operatorContainer settings).segments = some old)
    (hnew : after.resolve? (operatorContainer settings).segments = some new) :
    RenewedContainer inputs settings old new := by
  have hfield {root node : Tree} (name : String)
      (h : root.resolve? (operatorContainer settings).segments = some node) :
      root.resolve? ((operatorContainer settings).key name).segments = node.field? name := by
    show root.resolve? ((operatorContainer settings).segments ++ [.key name]) = _
    rw [Tree.resolve?_append, h, Option.bind_some, Tree.resolve?_singleton, Tree.child?]
  have himage : Operation.setText ((operatorContainer settings).key "image") inputs.operatorImage ∈
      deploymentOperations inputs settings := by simp [deploymentOperations]
  have henv : Operation.setEntries ((operatorContainer settings).key "env") "name" "value"
      (containerVariables settings inputs) ∈ deploymentOperations inputs settings := by
    simp [deploymentOperations]
  replace himage := hran.resolve?_set hind (List.mem_append_right _ himage)
  obtain ⟨env, env', items, henv, hitems, henv', hitems'⟩ :=
    hran.resolve?_setEntries hind (List.mem_append_right _ henv)
  rw [hfield "image" hnew] at himage
  rw [hfield "env" hold] at henv
  rw [hfield "env" hnew] at henv'
  refine ⟨himage, ⟨env, env', items, henv, hitems, henv', hitems'⟩, ?_⟩
  intro env'' items'' henv'' hitems'' item hitem name value hname hvalue
  obtain rfl := Option.some.inj (henv'.symm.trans henv'')
  obtain rfl := Option.some.inj (hitems'.symm.trans hitems'')
  obtain ⟨before, -, rfl⟩ := List.mem_map.1 hitem
  exact Tree.field?_withNamedValue (by decide) hname hvalue

include hstamp in
/-- The deployment before and after the run, and the container in it. -/
theorem exists_renewedDeployment :
    ∃ deployments deployments' deployment deployment',
      tree.resolve? deploymentsPath = some deployments ∧
      after.resolve? deploymentsPath = some deployments' ∧
      Renewed (operatorNamed settings) deployments deployments' deployment deployment' ∧
      tree.resolve? (operatorDeployment settings).segments = some deployment ∧
      after.resolve? (operatorDeployment settings).segments = some deployment' ∧
      RenewedDeployment inputs settings tree after deployment deployment' := by
  obtain ⟨old, new, pre, c, d, post, hold, hnew, hitems, hitems', hpicks, hstill⟩ :=
    deployment_fallsOnOne hstamp hran
  obtain ⟨old', new', pre', c', d', post', hold', hnew', hlist, hlist', hpicks', hstill'⟩ :=
    container_fallsOnOne hstamp hran
  -- below the deployments all is found through the one that the condition picks
  have hdeployment := resolve?_below hold hitems hpicks
  have hrenamed := resolve?_below hnew hitems' hstill
  have hcontainer := resolve?_below hold' hlist hpicks' []
  have hchanged := resolve?_below hnew' hlist' hstill' []
  rw [hdeployment] at hold'
  rw [hrenamed] at hnew'
  rw [Tree.resolve?_nil] at hcontainer hchanged
  have hname : Operation.setText ((operatorDeployment settings).key "name")
      (bundleName settings inputs.currentVersion) ∈ deploymentOperations inputs settings := by
    simp [deploymentOperations]
  replace hname : after.resolve?
      (deploymentsPath ++ .find (operatorNamed settings) :: [.key "name"]) = _ :=
    hran.resolve?_set hind (List.mem_append_right _ hname)
  rw [hrenamed, Tree.resolve?_singleton, Tree.child?] at hname
  have hrenewed := renewed_of_picks hitems hitems' hpicks hstill
  refine ⟨old, new, c, d, hold, hnew, hrenewed, ?_, ?_, hname, ?_⟩
  · exact (hdeployment []).trans (Tree.resolve?_nil c)
  · exact (hrenamed []).trans (Tree.resolve?_nil d)
  · exact ⟨old', new', c', d', hold', hnew', renewed_of_picks hlist hlist' hpicks' hstill',
      hcontainer, hchanged, renewedContainer hran hind hcontainer hchanged⟩

end Run

/-- **The end state.** If the patch of a service version ends well where no target may be missing,
all of it is applied, and the document says all that it writes. -/
theorem endState_of_patch {operations : List Operation} {before after : Manifest}
    {report : Report} (hset : serviceVersionPatch inputs settings = .ok operations)
    (hpatch : before.patch .fail operations = (after, .ok report)) :
    report.records = operations.map (·.record .applied) ∧
      EndState inputs settings before after := by
  have hind := independent_serviceVersionPatch hset
  obtain ⟨hran, -⟩ := Manifest.patch_eq_ok.1 hpatch
  obtain ⟨stamps, hstamp, rfl⟩ := serviceVersionPatch_eq_ok.1 hset
  refine ⟨hran.records_eq fun operation hmem => ?_, ?_⟩
  · obtain ⟨path, name, hkey⟩ := hind.atKeys operation hmem
    exact hkey.unguarded
  have hvalue {target : Locator} {value : Tree}
      (hmem : Operation.set target value ∈ releaseOperations inputs settings stamps) :
      after.get? target = some value :=
    hran.resolve?_set hind (List.mem_append_left _ hmem)
  have htext {target : Locator} {value : String}
      (hmem : Operation.setText target value ∈ releaseOperations inputs settings stamps) :
      after.get? target = some (.text value) := hvalue hmem
  constructor
  case name => exact htext (by simp [releaseOperations, bundleName])
  case version => exact htext (by simp [releaseOperations])
  case maintainers => exact hvalue (by simp [releaseOperations])
  case icon => exact htext (by simp [releaseOperations])
  case description => exact htext (by simp [releaseOperations])
  case displayName => exact htext (by simp [releaseOperations])
  case replaces_first =>
    intro hpatch
    have hmem : Operation.remove (.path "spec.replaces") ∈
        releaseOperations inputs settings stamps := by
      simp [releaseOperations, replaced_first hpatch]
    exact hran.resolve?_remove hind (List.mem_append_left _ hmem)
  case replaces_later =>
    intro patch hpatch
    exact htext (by simp [releaseOperations, replaced_later hpatch])
  case skipRange => exact htext (by simp [releaseOperations, skipRange_eq])
  case containerImage => exact htext (by simp [releaseOperations])
  case quayVersion => exact htext (by simp [releaseOperations])
  case subscriptions => exact htext (by simp [releaseOperations])
  case createdAt =>
    intro hflag
    rcases stamp_eq_ok hstamp with ⟨hnone, -⟩ | ⟨-, seconds, text, hseconds, htime, rfl⟩
    · rw [hnone] at hflag
      cases hflag
    · exact ⟨seconds, text, hseconds, htime, htext (by simp [releaseOperations])⟩
  case brand => exact exists_brand hran hind
  case deployment => exact exists_renewedDeployment hstamp hran hind

/-- A mapping with keys that are strings. -/
def record (fields : List (String × Tree)) : Tree :=
  .mapping (fields.map fun field => (.text field.1, field.2))

/-- A service version with a deployment before the operator's. -/
def sample : Tree :=
  let container := record [("name", .text "quay-operator"), ("image", .text "none"),
    ("env", .sequence [record [("name", .text "RELATED_IMAGE_COMPONENT_REDIS")]])]
  let template := record [("spec", record [("containers", .sequence [container])])]
  let deployments := Tree.sequence [record [("name", .text "other")],
    record [("name", .text "quay-operator-tng"), ("spec", record [("template", template)])]]
  record [
    ("metadata", record [("name", .text "quay"),
      ("annotations", record [("description", .text "Quay and more Quay")])]),
    ("spec", record [("icon", .sequence [record []]), ("replaces", .text "quay.v0"),
      ("install", record [("spec", record [("deployments", deployments)])])])]

/-- The inputs of a first release. -/
def sampleInputs : ReleaseInputs where
  targetFile := "csv.yaml"
  release := ⟨3, 14, 0⟩
  currentVersion := "3.14.0"
  fullVersion := "v3.14.0"
  operatorImage := "operator:v3.14.0"
  images :=
    ⟨"quay", "clair", "builder", "qemu", "pg", "pg-old", "clair-pg", "clair-pg-old", "redis"⟩
  timestamp := none

/-- The operations for these inputs. -/
def sampleOperations : List Operation :=
  releaseOperations sampleInputs .standard [] ++ deploymentOperations sampleInputs .standard

theorem endState_of_sample :
    ∃ after report, serviceVersionPatch sampleInputs .standard = .ok sampleOperations ∧
      (Manifest.ofTree sample).patch .fail sampleOperations = (after, .ok report) ∧
      report.records = sampleOperations.map (·.record .applied) ∧
      EndState sampleInputs .standard (.ofTree sample) after := by
  have hset : serviceVersionPatch sampleInputs .standard = .ok sampleOperations := rfl
  have hends : ((Manifest.ofTree sample).patch .fail sampleOperations).2.isOk := by
    decide +kernel
  cases hpatch : (Manifest.ofTree sample).patch .fail sampleOperations with
  | mk after result =>
    rw [hpatch] at hends
    cases result with
    | error e => cases hends
    | ok report => exact ⟨after, report, hset, rfl, endState_of_patch hset hpatch⟩

end OperatorBundle.Bundle
