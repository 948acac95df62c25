import OperatorBundle.Proofs.Command.Inputs
import OperatorBundle.Proofs.Number.Numeral

/-!
How the environment of a build is checked. Seventeen variables are read in a fixed order: sixteen
that must be set, three of which hold numbers, and the time, which may be missing but must be a
number if it is set, whether or not it is asked for.

* `ReleaseInputs.validation_exact`: when there are inputs, what they hold, which variable is
  reported if there are none, and that no other variable matters.
-/

namespace OperatorBundle

open OperatorBundle.Number OperatorBundle.Yaml

/-- The variables that the inputs come from, in the order in which they are read. -/
def readingOrder : List String := releaseVariables ++ [timeVariable]

namespace Environment

/-- Whether all that must be set is set, and each number is one of its range. -/
structure IsComplete (env : Environment) : Prop where
  isSet : ∀ name ∈ releaseVariables, ∃ value, env name = some value
  numbers : ∀ name ∈ numberVariables, ∀ value, env name = some value → ∃ n, IsUnsigned32 value n
  time : ∀ value, env timeVariable = some value → ∃ seconds, IsSigned64 value seconds

/-- What is wrong with a variable, as it is reported: the value with the blanks around it. -/
inductive Offends (env : Environment) : String → InputError → Prop
  | missing {name : String} (must : name ∈ releaseVariables) (unset : env name = none) :
      Offends env name (.missingVariable name)
  | malformed {name value : String} {fault : NumeralFault} (must : name ∈ numberVariables)
      (set : env name = some value) (noNumber : ∀ n, ¬IsUnsigned32 value n)
      (why : readUnsigned32 value = .error fault) :
      Offends env name (.invalidNumber name value fault)
  | malformedTime {value : String} {fault : NumeralFault} (set : env timeVariable = some value)
      (noNumber : ∀ n, ¬IsSigned64 value n) (why : readSigned64 value = .error fault) :
      Offends env timeVariable (.invalidNumber timeVariable value fault)

/-- What is wrong with the first of some variables with which anything is wrong. -/
def FirstOffence (env : Environment) (names : List String) (error : InputError) : Prop :=
  ∃ before name after, names = before ++ name :: after ∧
    (∀ earlier ∈ before, ∀ other, ¬env.Offends earlier other) ∧ env.Offends name error

end Environment

namespace ReleaseInputs

/-- The inputs that stand in a variable as they are. -/
def texts (inputs : ReleaseInputs) : List (String × String) :=
  [("CI_VERSION", inputs.fullVersion), ("TARGET_CSV_FILE", inputs.targetFile),
    ("CI_VERSION_SANITIZED", inputs.currentVersion), ("POSTGRES_IMAGE", inputs.images.postgres),
    ("POSTGRES_IMAGE_PREVIOUS", inputs.images.postgresPrevious),
    ("CLAIR_POSTGRES_IMAGE", inputs.images.clairPostgres),
    ("CLAIR_POSTGRES_IMAGE_PREVIOUS", inputs.images.clairPostgresPrevious),
    ("REDIS_IMAGE", inputs.images.redis)]

/-- The images whose names end in the version. -/
def tagged (inputs : ReleaseInputs) : List (String × String) :=
  [("OPERATOR_IMAGE", inputs.operatorImage), ("QUAY_IMAGE", inputs.images.quay),
    ("CLAIR_IMAGE", inputs.images.clair), ("QUAY_BUILDER_IMAGE", inputs.images.builder),
    ("QUAY_BUILDER_QEMU_IMAGE", inputs.images.builderQemu)]

/-- The numbers of the release. -/
def numbers (inputs : ReleaseInputs) : List (String × Nat) :=
  [("X_VERSION", inputs.release.major), ("Y_VERSION", inputs.release.minor),
    ("Z_VERSION", inputs.release.patch)]

/-- Whether each input is what its variable holds. -/
structure HeldBy (inputs : ReleaseInputs) (env : Environment) : Prop where
  texts : ∀ held ∈ inputs.texts, env held.1 = some held.2
  tagged : ∀ held ∈ inputs.tagged, ∃ image, env held.1 = some image ∧
    image ++ inputs.fullVersion = held.2
  numbers : ∀ held ∈ inputs.numbers, ∃ value, env held.1 = some value ∧ IsUnsigned32 value held.2
  timestamp : (env timeVariable = none ∧ inputs.timestamp = none) ∨
    ∃ value seconds, env timeVariable = some value ∧ IsSigned64 value seconds ∧
      inputs.timestamp = some seconds

end ReleaseInputs

/-! ### The first offence -/

section Order

variable {env : Environment} {name : String} {names : List String} {error : InputError}
  {α β : Type}

namespace Environment

theorem not_firstOffence_nil : ¬env.FirstOffence [] error := by
  rintro ⟨before, name, after, h, -⟩
  cases before <;> cases h

theorem firstOffence_cons :
    env.FirstOffence (name :: names) error ↔
      env.Offends name error ∨
        (∀ other, ¬env.Offends name other) ∧ env.FirstOffence names error := by
  constructor
  · rintro ⟨before, found, after, h, hbefore, hfound⟩
    cases before with
    | nil =>
      obtain ⟨rfl, -⟩ := List.cons.inj h
      exact .inl hfound
    | cons first before =>
      obtain ⟨rfl, rfl⟩ := List.cons.inj h
      rw [List.forall_mem_cons] at hbefore
      exact .inr ⟨hbefore.1, before, found, after, rfl, hbefore.2, hfound⟩
  · rintro (hname | ⟨hname, before, found, after, rfl, hbefore, hfound⟩)
    · exact ⟨[], name, names, rfl, by simp, hname⟩
    · exact ⟨name :: before, found, after, rfl, List.forall_mem_cons.2 ⟨hname, hbefore⟩, hfound⟩

/-- Whether a computation that reads some variables in turn fails as the first that offends. -/
def Reports (env : Environment) (names : List String) (x : Except InputError α) : Prop :=
  ∀ error, x = .error error ↔ env.FirstOffence names error

theorem reports_ok (a : α) : env.Reports [] (.ok a) := by
  intro error
  simp [not_firstOffence_nil]

/-- One variable more in front of those that are read. -/
theorem Reports.bind {x : Except InputError α} {f : α → Except InputError β}
    (hx : ∀ error, x = .error error ↔ env.Offends name error)
    (hf : ∀ a, env.Reports names (f a)) : env.Reports (name :: names) (x >>= f) := by
  intro error
  rw [firstOffence_cons]
  cases x with
  | error found =>
    have hfound : env.Offends name found := (hx found).1 rfl
    have hrest : ¬∀ other, ¬env.Offends name other := fun h => h found hfound
    have hstops : (Except.error found >>= f) = .error error ↔
        (Except.error found : Except InputError α) = .error error := by
      show Except.error found = _ ↔ _
      rw [Except.error.injEq, Except.error.injEq]
    rw [hstops, hx error]
    simp only [hrest, false_and, or_false]
  | ok a =>
    have hnone : ∀ other, ¬env.Offends name other := by
      intro other h
      cases (hx other).2 h
    simp only [hnone, not_false_eq_true, implies_true, true_and, false_or]
    exact hf a error

theorem required_eq_error (hmust : name ∈ releaseVariables) (hplain : name ∉ numberVariables) :
    env.required name = .error error ↔ env.Offends name error := by
  constructor
  · intro h
    unfold required at h
    split at h
    · cases h
    · next hunset =>
      cases h
      exact .missing hmust hunset
  · rintro (⟨-, hunset⟩ | ⟨hnumber, -⟩ | -)
    · rw [required, hunset]
    · exact absurd hnumber hplain
    · exact absurd hmust (by decide)

theorem numberVariables_subset (h : name ∈ numberVariables) : name ∈ releaseVariables := by
  revert name
  decide

theorem requiredNumber_eq_error (hmust : name ∈ numberVariables) :
    env.requiredNumber name = .error error ↔ env.Offends name error := by
  have hrelease : name ∈ releaseVariables := numberVariables_subset hmust
  have htime : timeVariable ∉ numberVariables := by decide
  unfold requiredNumber required
  constructor
  · intro h
    cases hvalue : env name with
    | none =>
      rw [hvalue] at h
      cases h
      exact .missing hrelease hvalue
    | some value =>
      rw [hvalue] at h
      cases hread : readUnsigned32 value with
      | ok n => simp [hread, bind, Except.bind] at h
      | error fault =>
        simp only [bind, Except.bind, hread, Except.error.injEq] at h
        subst h
        refine .malformed hmust hvalue (fun n hn => ?_) hread
        cases hread.symm.trans (readUnsigned32_eq_ok.2 hn)
  · rintro (⟨-, hunset⟩ | ⟨-, hset, -, hwhy⟩ | -)
    · rw [hunset]
      rfl
    · rw [hset]
      simp [bind, Except.bind, hwhy]
    · exact absurd hmust htime

theorem optionalNumber_eq_error :
    env.optionalNumber timeVariable = .error error ↔ env.Offends timeVariable error := by
  have hrelease : timeVariable ∉ releaseVariables := by decide
  have hnumber : timeVariable ∉ numberVariables := by decide
  unfold optionalNumber
  constructor
  · intro h
    cases hvalue : env timeVariable with
    | none => simp [hvalue] at h
    | some value =>
      cases hread : readSigned64 value with
      | ok n => simp [hvalue, hread] at h
      | error fault =>
        simp only [hvalue, hread, Except.error.injEq] at h
        subst h
        refine .malformedTime hvalue (fun n hn => ?_) hread
        cases hread.symm.trans (readSigned64_eq_ok.2 hn)
  · intro h
    cases h with
    | missing must => exact absurd must hrelease
    | malformed must => exact absurd must hnumber
    | malformedTime hset _ hwhy => simp [hset, hwhy]

/-- A text that something is added to is had if the text is. -/
theorem tagged_eq_error {version : String} :
    (do return (← env.required name) ++ version) = Except.error error ↔
      env.required name = .error error := by
  cases env.required name <;> simp [bind, Except.bind, pure, Except.pure]

end Environment

end Order

/-! ### Inputs -/

namespace ReleaseInputs

variable {env : Environment} {inputs : ReleaseInputs}

/-- What goes wrong in reading the inputs is what is wrong with the first variable that offends. -/
theorem reports_ofEnvironment : env.Reports readingOrder (ofEnvironment env) := by
  have hplain (name : String) (h : name ∈ releaseVariables ∧ name ∉ numberVariables)
      (error : InputError) : env.required name = .error error ↔ env.Offends name error :=
    Environment.required_eq_error h.1 h.2
  have hnumber (name : String) (h : name ∈ numberVariables) (error : InputError) :
      env.requiredNumber name = .error error ↔ env.Offends name error :=
    Environment.requiredNumber_eq_error h
  have htagged (version name : String) (h : name ∈ releaseVariables ∧ name ∉ numberVariables)
      (error : InputError) :
      (do return (← env.required name) ++ version) = Except.error error ↔
        env.Offends name error :=
    Environment.tagged_eq_error.trans (hplain name h error)
  -- one step for each variable, in the order in which they are read
  refine .bind (hplain "CI_VERSION" (by decide)) fun fullVersion => ?_
  refine .bind (hplain "TARGET_CSV_FILE" (by decide)) fun targetFile => ?_
  refine .bind (hnumber "X_VERSION" (by decide)) fun major => ?_
  refine .bind (hnumber "Y_VERSION" (by decide)) fun minor => ?_
  refine .bind (hnumber "Z_VERSION" (by decide)) fun patch => ?_
  refine .bind (hplain "CI_VERSION_SANITIZED" (by decide)) fun currentVersion => ?_
  refine .bind (htagged _ "OPERATOR_IMAGE" (by decide)) fun operatorImage => ?_
  refine .bind (htagged _ "QUAY_IMAGE" (by decide)) fun quay => ?_
  refine .bind (htagged _ "CLAIR_IMAGE" (by decide)) fun clair => ?_
  refine .bind (htagged _ "QUAY_BUILDER_IMAGE" (by decide)) fun builder => ?_
  refine .bind (htagged _ "QUAY_BUILDER_QEMU_IMAGE" (by decide)) fun builderQemu => ?_
  refine .bind (hplain "POSTGRES_IMAGE" (by decide)) fun postgres => ?_
  refine .bind (hplain "POSTGRES_IMAGE_PREVIOUS" (by decide)) fun postgresPrevious => ?_
  refine .bind (hplain "CLAIR_POSTGRES_IMAGE" (by decide)) fun clairPostgres => ?_
  refine .bind (hplain "CLAIR_POSTGRES_IMAGE_PREVIOUS" (by decide)) fun clairPostgresPrevious => ?_
  refine .bind (hplain "REDIS_IMAGE" (by decide)) fun redis => ?_
  refine .bind (fun error => Environment.optionalNumber_eq_error) fun timestamp => ?_
  exact Environment.reports_ok _

theorem isComplete_iff : env.IsComplete ↔ Command.serviceVersion.HasInputs env := by
  constructor
  · intro h
    refine ⟨h.isSet, fun _ name hname value hvalue => ?_, fun _ value hvalue => ?_⟩
    · obtain ⟨n, hn⟩ := h.numbers name hname value hvalue
      exact ⟨n, readUnsigned32_eq_ok.2 hn⟩
    · obtain ⟨n, hn⟩ := h.time value hvalue
      exact ⟨n, readSigned64_eq_ok.2 hn⟩
  · intro h
    refine ⟨h.isSet, fun name hname value hvalue => ?_, fun value hvalue => ?_⟩
    · obtain ⟨n, hn⟩ := h.numbers rfl name hname value hvalue
      exact ⟨n, readUnsigned32_eq_ok.1 hn⟩
    · obtain ⟨n, hn⟩ := h.time rfl value hvalue
      exact ⟨n, readSigned64_eq_ok.1 hn⟩

theorem optionalNumber_iff {n : Option Int} :
    env.optionalNumber timeVariable = .ok n ↔ (env timeVariable = none ∧ n = none) ∨
      ∃ value seconds, env timeVariable = some value ∧ IsSigned64 value seconds ∧
        n = some seconds := by
  rw [Environment.optionalNumber_eq_ok]
  simp only [readSigned64_eq_ok]

/-- Where the inputs are read from. -/
theorem ofEnvironment_eq_ok_iff : ofEnvironment env = .ok inputs ↔ inputs.HeldBy env := by
  unfold ofEnvironment
  simp only [bind_eq_ok, Environment.required_eq_ok, Environment.requiredNumber_eq_ok,
    readUnsigned32_eq_ok, pure, Except.pure, Except.ok.injEq]
  constructor
  · rintro ⟨_, hfull, _, hfile, _, hmajor, _, hminor, _, hpatch, _, hcurrent, _, hoperator, _,
      hquay, _, hclair, _, hbuilder, _, hqemu, _, hpostgres, _, hprevious, _, hclairPostgres, _,
      hclairPrevious, _, hredis, _, htime, rfl⟩
    refine ⟨?_, ?_, ?_, optionalNumber_iff.1 htime⟩
    · simp only [texts, List.forall_mem_cons]
      exact ⟨hfull, hfile, hcurrent, hpostgres, hprevious, hclairPostgres, hclairPrevious, hredis,
        by simp⟩
    · simp only [tagged, List.forall_mem_cons]
      exact ⟨hoperator, hquay, hclair, hbuilder, hqemu, by simp⟩
    · simp only [numbers, List.forall_mem_cons]
      exact ⟨hmajor, hminor, hpatch, by simp⟩
  · rintro ⟨htexts, htagged, hnumbers, htime⟩
    simp only [texts, List.forall_mem_cons] at htexts
    simp only [tagged, List.forall_mem_cons] at htagged
    simp only [numbers, List.forall_mem_cons] at hnumbers
    obtain ⟨hfull, hfile, hcurrent, hpostgres, hprevious, hclairPostgres, hclairPrevious, hredis,
      -⟩ := htexts
    obtain ⟨hoperator, hquay, hclair, hbuilder, hqemu, -⟩ := htagged
    obtain ⟨hmajor, hminor, hpatch, -⟩ := hnumbers
    exact ⟨_, hfull, _, hfile, _, hmajor, _, hminor, _, hpatch, _, hcurrent, _, hoperator, _,
      hquay, _, hclair, _, hbuilder, _, hqemu, _, hpostgres, _, hprevious, _, hclairPostgres, _,
      hclairPrevious, _, hredis, _, optionalNumber_iff.2 htime, rfl⟩

/-- No other variable is read. -/
theorem ofEnvironment_congr {other : Environment}
    (h : ∀ name ∈ readingOrder, env name = other name) :
    ofEnvironment env = ofEnvironment other := by
  have hvalue (name : String) (hname : name ∈ readingOrder) :
      env.required name = other.required name := by
    rw [Environment.required, Environment.required, h name hname]
  have hnumber (name : String) (hname : name ∈ readingOrder) :
      env.requiredNumber name = other.requiredNumber name := by
    rw [Environment.requiredNumber, Environment.requiredNumber, hvalue name hname]
  have htime : env.optionalNumber "EPOC_TIMESTAMP" = other.optionalNumber "EPOC_TIMESTAMP" := by
    rw [Environment.optionalNumber, Environment.optionalNumber, h _ (by decide)]
  unfold ofEnvironment
  simp (disch := decide) only [hvalue, hnumber, htime]

/-- **The environment is checked exactly.** There are inputs if and only if it is complete, and they
hold what the variables hold, the version behind five of the images. Otherwise the first variable
that offends is reported. Only the variables of the reading order matter. -/
theorem validation_exact (env : Environment) :
    ((∃ inputs, ofEnvironment env = .ok inputs) ↔ env.IsComplete) ∧
      (∀ inputs : ReleaseInputs, ofEnvironment env = .ok inputs ↔ inputs.HeldBy env) ∧
      (∀ error, ofEnvironment env = .error error ↔ env.FirstOffence readingOrder error) ∧
      ∀ other : Environment, (∀ name ∈ readingOrder, env name = other name) →
        ofEnvironment env = ofEnvironment other := by
  refine ⟨?_, fun inputs => ofEnvironment_eq_ok_iff, reports_ofEnvironment, fun other => ?_⟩
  · rw [isComplete_iff]
    constructor
    · rintro ⟨inputs, h⟩
      exact (ofEnvironment_eq_ok h).1
    · exact exists_of_hasInputs
  · exact ofEnvironment_congr

end ReleaseInputs

end OperatorBundle
