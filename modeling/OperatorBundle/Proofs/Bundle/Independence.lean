import OperatorBundle.Bundle.Annotations
import OperatorBundle.Bundle.ServiceVersion
import OperatorBundle.Proofs.Patch.Run
import OperatorBundle.Proofs.Text.Replacement

/-!
The operations of the two patches do not disturb each other. The only conditions on the way to a
target are on names; the operation on the deployment's own name leaves the condition on it met,
since the name of the bundle starts with the operator's.
-/

namespace OperatorBundle

open OperatorBundle.Text

/-! ### Texts that occur -/

theorem Text.occursIn_append (needle rest : List Char) : occursIn needle (needle ++ rest) :=
  occursIn_of_isPrefixOf (List.isPrefixOf_iff_prefix.2 (List.prefix_append needle rest))

/-! ### Targets without conditions -/

/-- Whether a segment is a condition. -/
def Segment.isFind : Segment → Bool
  | .find _ => true
  | _ => false

/-- Whether an operation has no guard, and as its target a key that is reached without
conditions. -/
def Operation.isDirect (operation : Operation) : Bool :=
  operation.guard.isNone && match operation.target.splitLast? with
    | some (path, .key _) => path.all fun segment => !segment.isFind
    | _ => false

theorem Tree.steady_of_not_isFind {leaf : Tree → Tree → Prop} {path : List Segment}
    (h : ∀ segment ∈ path, segment.isFind = false) : Steady leaf path := by
  induction path with
  | nil => trivial
  | cons segment rest ih =>
    obtain ⟨hsegment, hrest⟩ := List.forall_mem_cons.1 h
    cases segment with
    | key | index => exact ih hrest
    | find selector => cases hsegment

theorem Operation.exists_atKey_of_isDirect {operation : Operation} (h : operation.isDirect) :
    ∃ path name, operation.AtKey path name := by
  unfold isDirect at h
  rw [Bool.and_eq_true, Option.isNone_iff_eq_none] at h
  obtain ⟨hguard, htarget⟩ := h
  unfold Locator.splitLast? at htarget
  cases hlast : operation.target.segments.getLast? with
  | none => simp [hlast] at htarget
  | some last =>
    rw [hlast, Option.map_some] at htarget
    cases last with
    | index | find => cases htarget
    | key name =>
      refine ⟨operation.target.segments.dropLast, name, hguard, ?_, ?_⟩
      · exact (List.dropLast_append_getLast? _ (by simp [hlast])).symm
      · refine Tree.steady_of_not_isFind ?_
        intro segment hsegment
        simpa using List.all_eq_true.1 htarget segment hsegment

/-! ### Steady operations on the deployment -/

/-- An action at a key that a condition does not look at leaves the condition as it is. -/
theorem Action.accepts_of_makes {action : Action} {name : String} {selector : Selector}
    {a b : Tree} (hfield : selector.field ≠ name) (h : action.Makes name a b) :
    selector.accepts b = selector.accepts a :=
  (Action.onParent_eq_ok h).2.accepts hfield

/-- A text put at the key that a condition looks at is what the condition judges. -/
theorem Action.accepts_of_makes_text {value : String} (selector : Selector) {a b : Tree}
    (h : (Action.set (.text value)).Makes selector.field a b) :
    selector.accepts b = selector.matcher.accepts value := by
  have hspot := Action.eq_of_set_onSpot (Action.onParent_eq_ok h).1
  have hvalue : b.field? selector.field = some (.text value) := by
    rw [← Tree.value?_spotAt, hspot, Spot.value?]
  rw [Selector.accepts, hvalue]
  rfl

namespace Bundle

variable {inputs : ReleaseInputs} {settings : Settings} {operations : List Operation}

/-- The condition by which the operator's deployment and container are found. -/
def operatorNamed (settings : Settings) : Selector := ⟨"name", .contains settings.operatorName⟩

/-- The path to the deployments. -/
def deploymentsPath : List Segment :=
  [.key "spec", .key "install", .key "spec", .key "deployments"]

/-- The path from a deployment to its containers. -/
def containersPath : List Segment :=
  [.key "spec", .key "template", .key "spec", .key "containers"]

theorem segments_operatorDeployment (settings : Settings) :
    (operatorDeployment settings).segments = deploymentsPath ++ [.find (operatorNamed settings)] :=
  rfl

theorem segments_operatorContainer (settings : Settings) :
    (operatorContainer settings).segments =
      deploymentsPath ++ .find (operatorNamed settings) :: containersPath ++
        [.find (operatorNamed settings)] :=
  rfl

theorem accepts_bundleName (settings : Settings) (version : String) :
    (operatorNamed settings).matcher.accepts (bundleName settings version) := by
  show occursIn settings.operatorName.toList (bundleName settings version).toList
  rw [bundleName, String.toList_append, String.toList_append, List.append_assoc]
  exact Text.occursIn_append _ _

/-- The renamed deployment is still named after the operator. -/
theorem atKey_deployment_name (settings : Settings) (version : String) :
    (Operation.setText ((operatorDeployment settings).key "name")
      (bundleName settings version)).AtKey
      (deploymentsPath ++ [.find (operatorNamed settings)]) "name" where
  unguarded := rfl
  target := rfl
  steady := fun a b h _ => by
    rw [Action.accepts_of_makes_text (operatorNamed settings) h]
    exact accepts_bundleName settings version

/-- An operation on another field of the container leaves it named after the operator. -/
theorem atKey_container {action : Action} {name : String} (hname : "name" ≠ name) :
    (Operation.mk ((operatorContainer settings).key name) action none).AtKey
      (operatorContainer settings).segments name where
  unguarded := rfl
  target := rfl
  steady := by
    have hspec : (operatorNamed settings).field ≠ "spec" := by
      show "name" ≠ "spec"
      decide
    refine ⟨hspec, ?_⟩
    intro a b h haccepts
    rwa [Action.accepts_of_makes hname h]

theorem atKey_image (inputs : ReleaseInputs) (settings : Settings) :
    (Operation.setText ((operatorContainer settings).key "image") inputs.operatorImage).AtKey
      (operatorContainer settings).segments "image" :=
  atKey_container (by decide)

theorem atKey_env (inputs : ReleaseInputs) (settings : Settings) :
    (Operation.setEntries ((operatorContainer settings).key "env") "name" "value"
      (containerVariables settings inputs)).AtKey (operatorContainer settings).segments "env" :=
  atKey_container (by decide)

/-! ### The brand in descriptions -/

/-- No mention of the upstream brand is left. -/
theorem occursIn_quay (text : List Char) :
    occursIn "Quay".toList (replaceAll "Quay".toList "Red Hat".toList text) = false := by
  show occursIn ['Q', 'u', 'a', 'y']
    (replaceAll ['Q', 'u', 'a', 'y'] ['R', 'e', 'd', ' ', 'H', 'a', 't'] text) = false
  exact occursIn_replaceAll (by decide) (by decide) text

/-- A text that was rebranded stays as it is. -/
theorem replaceAll_quay (text : List Char) :
    replaceAll "Quay".toList "Red Hat".toList
        (replaceAll "Quay".toList "Red Hat".toList text) =
      replaceAll "Quay".toList "Red Hat".toList text :=
  replaceAfter_zero_of_not_occursIn _ (occursIn_quay text)

/-! ### The patch of a service version -/

theorem serviceVersionPatch_eq_ok :
    serviceVersionPatch inputs settings = .ok operations ↔
      ∃ stamps, stamp settings inputs = .ok stamps ∧
        operations =
          releaseOperations inputs settings stamps ++ deploymentOperations inputs settings := by
  unfold serviceVersionPatch
  cases stamp settings inputs with
  | error e => simp [bind, Except.bind]
  | ok stamps => simp [bind, Except.bind, pure, Except.pure, eq_comm]

/-- The time of the build is written if it is asked for. -/
theorem stamp_eq_ok {stamps : List Operation} (h : stamp settings inputs = .ok stamps) :
    (settings.stampCreatedAt = false ∧ stamps = []) ∨
      settings.stampCreatedAt = true ∧ ∃ seconds text, inputs.timestamp = some seconds ∧
        timeStamp? seconds = some text ∧ stamps = [.setText (versionMark "createdAt") text] := by
  unfold stamp at h
  cases hstamp : settings.stampCreatedAt with
  | false =>
    rw [hstamp, if_neg (by decide)] at h
    exact .inl ⟨rfl, (Except.ok.inj h).symm⟩
  | true =>
    rw [hstamp, if_pos rfl] at h
    cases hseconds : inputs.timestamp with
    | none => simp [hseconds] at h
    | some seconds =>
      cases htext : timeStamp? seconds with
      | none => simp [hseconds, htext] at h
      | some text =>
        simp only [hseconds, htext] at h
        exact .inr ⟨rfl, seconds, text, rfl, htext, (Except.ok.inj h).symm⟩

/-- The targets of the operations that are reached without conditions. -/
def releaseTargets (stamped : Bool) : List (List Segment) :=
  [.key "metadata", .key "name"] ::
    ((if stamped then [[.key "metadata", .key "annotations", .key "createdAt"]] else []) ++ [
      [.key "spec", .key "maintainers"],
      [.key "spec", .key "icon", .index 0, .key "mediatype"],
      [.key "spec", .key "description"],
      [.key "spec", .key "displayName"],
      [.key "spec", .key "version"],
      [.key "spec", .key "replaces"],
      [.key "metadata", .key "annotations", .key "olm.skipRange"],
      [.key "metadata", .key "annotations", .key "containerImage"],
      [.key "metadata", .key "annotations", .key "quay-version"],
      [.key "metadata", .key "annotations", .key "description"],
      [.key "metadata", .key "annotations", .key "operators.openshift.io/valid-subscription"]])

theorem segments_target_replaced (settings : Settings) (inputs : ReleaseInputs) :
    (replaced settings inputs).target.segments = [.key "spec", .key "replaces"] := by
  unfold replaced
  cases inputs.release.previous? <;> rfl

theorem isDirect_replaced (settings : Settings) (inputs : ReleaseInputs) :
    (replaced settings inputs).isDirect := by
  unfold replaced
  cases inputs.release.previous? <;> rfl

theorem map_target_releaseOperations {stamps : List Operation}
    (h : stamp settings inputs = .ok stamps) :
    (releaseOperations inputs settings stamps).map (·.target.segments) =
      releaseTargets settings.stampCreatedAt := by
  have hreplaced := segments_target_replaced settings inputs
  rcases stamp_eq_ok h with ⟨hstamp, rfl⟩ | ⟨hstamp, seconds, text, -, -, rfl⟩
  · rw [hstamp]
    simp only [releaseOperations, List.nil_append, List.map_cons, hreplaced]
    rfl
  · rw [hstamp]
    simp only [releaseOperations, List.cons_append, List.nil_append, List.map_cons, hreplaced]
    rfl

theorem isDirect_releaseOperations {stamps : List Operation}
    (h : stamp settings inputs = .ok stamps) :
    ∀ operation ∈ releaseOperations inputs settings stamps, operation.isDirect := by
  have hstamps : ∀ operation ∈ stamps, operation.isDirect := by
    rcases stamp_eq_ok h with ⟨-, rfl⟩ | ⟨-, seconds, text, -, -, rfl⟩
    · simp
    · exact List.forall_mem_singleton.2 rfl
  intro operation hmem
  simp only [releaseOperations, List.mem_cons, List.mem_append, List.not_mem_nil, or_false] at hmem
  rcases hmem with rfl | hmem | rfl | rfl | rfl | rfl | rfl | rfl | rfl | rfl | rfl | rfl | rfl
  · rfl
  · exact hstamps operation hmem
  all_goals first | rfl | exact isDirect_replaced settings inputs

/-- The targets on the release are not among the deployments. -/
theorem parts_deployments {stamps : List Operation} (h : stamp settings inputs = .ok stamps) :
    ∀ operation ∈ releaseOperations inputs settings stamps,
      parts operation.target.segments deploymentsPath := by
  have htargets : ∀ target ∈ releaseTargets settings.stampCreatedAt,
      parts target deploymentsPath := by
    cases settings.stampCreatedAt <;> decide
  intro operation hmem
  refine htargets _ ?_
  rw [← map_target_releaseOperations h]
  exact List.mem_map_of_mem hmem

theorem pairwise_releaseOperations {stamps : List Operation}
    (h : stamp settings inputs = .ok stamps) :
    (releaseOperations inputs settings stamps).Pairwise Operation.Apart := by
  -- the targets depend on no text of the release, so they can be compared once and for all
  have htargets : (releaseTargets settings.stampCreatedAt).Pairwise fun p q => parts p q := by
    cases settings.stampCreatedAt <;> decide
  rw [← map_target_releaseOperations h, List.pairwise_map] at htargets
  exact htargets

theorem pairwise_deploymentOperations (inputs : ReleaseInputs) (settings : Settings) :
    (deploymentOperations inputs settings).Pairwise Operation.Apart := by
  simp [deploymentOperations, Operation.Apart, Operation.setText, Operation.set,
    Operation.setEntries, Locator.key, Locator.below, segments_operatorDeployment,
    segments_operatorContainer, deploymentsPath, containersPath, parts]

theorem target_deploymentOperations :
    ∀ operation ∈ deploymentOperations inputs settings, ∃ rest,
      operation.target.segments = deploymentsPath ++ rest := by
  simp [deploymentOperations, Operation.setText, Operation.set,
    Operation.setEntries, Locator.key, Locator.below, segments_operatorDeployment,
    segments_operatorContainer]

theorem atKey_deploymentOperations :
    ∀ operation ∈ deploymentOperations inputs settings, ∃ path name, operation.AtKey path name := by
  intro operation hmem
  simp only [deploymentOperations, List.mem_cons, List.not_mem_nil, or_false] at hmem
  rcases hmem with rfl | rfl | rfl
  · exact ⟨_, _, atKey_deployment_name settings inputs.currentVersion⟩
  · exact ⟨_, _, atKey_image inputs settings⟩
  · exact ⟨_, _, atKey_env inputs settings⟩

/-- **The operations on a service version are independent.** -/
theorem independent_serviceVersionPatch (h : serviceVersionPatch inputs settings = .ok operations) :
    Independent operations := by
  obtain ⟨stamps, hstamp, rfl⟩ := serviceVersionPatch_eq_ok.1 h
  constructor
  · intro operation hmem
    rcases List.mem_append.1 hmem with hmem | hmem
    · exact Operation.exists_atKey_of_isDirect (isDirect_releaseOperations hstamp operation hmem)
    · exact atKey_deploymentOperations operation hmem
  · refine List.pairwise_append.2 ⟨pairwise_releaseOperations hstamp,
      pairwise_deploymentOperations inputs settings, ?_⟩
    intro first hfirst second hsecond
    obtain ⟨rest, hrest⟩ := target_deploymentOperations second hsecond
    unfold Operation.Apart
    rw [hrest]
    exact parts_append (parts_deployments hstamp first hfirst) rest

/-! ### The patch of the annotations -/

/-- **The operations on the annotations are independent.** -/
theorem independent_annotationsPatch (settings : Settings) :
    Independent (annotationsPatch settings) := by
  constructor
  · intro operation hmem
    refine Operation.exists_atKey_of_isDirect ?_
    simp only [annotationsPatch, List.mem_cons, List.not_mem_nil, or_false] at hmem
    rcases hmem with rfl | rfl | rfl <;> rfl
  · have htargets : ((annotationsPatch settings).map (·.target.segments)).Pairwise
        fun p q => parts p q := by
      show List.Pairwise (fun p q => parts p q)
        [[.key "annotations", .key "operators.operatorframework.io.bundle.package.v1"],
          [.key "annotations", .key "operators.operatorframework.io.bundle.channel.default.v1"],
          [.key "annotations", .key "operators.operatorframework.io.bundle.channels.v1"]]
      decide
    rw [List.pairwise_map] at htargets
    exact htargets

end Bundle

end OperatorBundle
