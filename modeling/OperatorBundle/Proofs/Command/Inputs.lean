import OperatorBundle.Command.Run
import OperatorBundle.Proofs.Bundle.Independence
import OperatorBundle.Proofs.Yaml.DistinctKeys

/-!
What a command asks of the environment: variables that must be set, some of which must hold numbers,
and a time with a date where the time of the build is to be written.

* `Command.exists_job_iff`: a command has a target and operations if and only if it is given these.
-/

namespace OperatorBundle

open OperatorBundle.Number OperatorBundle.Yaml OperatorBundle.Bundle

/-! ### Variables -/

namespace Environment

variable {env : Environment} {name : String}

theorem required_eq_ok {value : String} :
    env.required name = .ok value ↔ env name = some value := by
  unfold required
  cases env name <;> simp

theorem requiredNumber_eq_ok {n : Nat} :
    env.requiredNumber name = .ok n ↔
      ∃ value, env name = some value ∧ readUnsigned32 value = .ok n := by
  unfold requiredNumber
  rw [bind_eq_ok]
  simp only [required_eq_ok]
  refine exists_congr fun value => and_congr_right fun _ => ?_
  cases readUnsigned32 value <;> simp

theorem optionalNumber_eq_ok {n : Option Int} :
    env.optionalNumber name = .ok n ↔
      (env name = none ∧ n = none) ∨
        ∃ value seconds, env name = some value ∧ readSigned64 value = .ok seconds ∧
          n = some seconds := by
  unfold optionalNumber
  cases env name with
  | none => simp [eq_comm]
  | some value => cases hread : readSigned64 value <;> simp [hread, eq_comm]

end Environment

/-- The variables with the numbers of a release. -/
def numberVariables : List String := ["X_VERSION", "Y_VERSION", "Z_VERSION"]

/-- The variable with the time of the build. -/
def timeVariable : String := "EPOC_TIMESTAMP"

namespace Command

/-- The variable that names the target. -/
def targetVariable : Command → String
  | .serviceVersion => "TARGET_CSV_FILE"
  | .annotations => "TARGET_METADATA_ANNOTATIONS_FILE"

/-- The variables that must be set. -/
def required : Command → List String
  | .serviceVersion => releaseVariables
  | .annotations => [targetVariable .annotations]

/-- Whether no variable is missing or malformed. -/
structure HasInputs (command : Command) (env : Environment) : Prop where
  isSet : ∀ name ∈ command.required, ∃ value, env name = some value
  numbers : command = .serviceVersion → ∀ name ∈ numberVariables, ∀ value,
    env name = some value → ∃ n, readUnsigned32 value = .ok n
  time : command = .serviceVersion → ∀ value,
    env timeVariable = some value → ∃ seconds, readSigned64 value = .ok seconds

/-- Whether there is a time stamp where one is asked for. -/
def HasStamp (command : Command) (env : Environment) (settings : Settings) : Prop :=
  command = .serviceVersion → settings.stampCreatedAt = true → ∃ value seconds,
    env timeVariable = some value ∧ readSigned64 value = .ok seconds ∧
      firstSecond ≤ seconds ∧ seconds ≤ lastSecond

end Command

/-! ### Inputs -/

section Release

variable {env : Environment} {inputs : ReleaseInputs} {settings : Settings}

theorem ReleaseInputs.ofEnvironment_eq_ok (h : ReleaseInputs.ofEnvironment env = .ok inputs) :
    Command.serviceVersion.HasInputs env ∧ env "TARGET_CSV_FILE" = some inputs.targetFile ∧
      env.optionalNumber timeVariable = .ok inputs.timestamp := by
  unfold ReleaseInputs.ofEnvironment at h
  simp only [bind_eq_ok, Environment.required_eq_ok, Environment.requiredNumber_eq_ok] at h
  obtain ⟨_, hfull, _, hfile, _, ⟨_, hmajor, hx⟩, _, ⟨_, hminor, hy⟩, _, ⟨_, hpatch, hz⟩, _,
    hcurrent, _, ⟨_, hoperator, -⟩, _, ⟨_, hquay, -⟩, _, ⟨_, hclair, -⟩, _, ⟨_, hbuilder, -⟩, _,
    ⟨_, hqemu, -⟩, _, hpostgres, _, hprevious, _, hclairPostgres, _, hclairPrevious, _, hredis, _,
    htime, h⟩ := h
  obtain rfl := Except.ok.inj h
  refine ⟨⟨?_, fun _ => ?_, fun _ value hvalue => ?_⟩, hfile, htime⟩
  · simp [Command.required, releaseVariables, *]
  · simp only [numberVariables, List.forall_mem_cons, hmajor, hminor, hpatch, Option.some.injEq]
    refine ⟨?_, ?_, ?_, by simp⟩
    · rintro _ rfl
      exact ⟨_, hx⟩
    · rintro _ rfl
      exact ⟨_, hy⟩
    · rintro _ rfl
      exact ⟨_, hz⟩
  · rcases Environment.optionalNumber_eq_ok.1 htime with ⟨hnone, -⟩ | ⟨_, seconds, hset, hread, -⟩
    · rw [timeVariable, hnone] at hvalue
      cases hvalue
    · obtain rfl := Option.some.inj (hset.symm.trans hvalue)
      exact ⟨seconds, hread⟩

/-- A computation ends well if its first part does, and what follows always does. -/
theorem exists_ok_bind {ε α β : Type} {x : Except ε α} {f : α → Except ε β}
    (hx : ∃ a, x = .ok a) (hf : ∀ a, ∃ b, f a = .ok b) : ∃ b, (x >>= f) = .ok b := by
  obtain ⟨a, rfl⟩ := hx
  exact hf a

theorem ReleaseInputs.exists_of_hasInputs (h : Command.serviceVersion.HasInputs env) :
    ∃ inputs, ReleaseInputs.ofEnvironment env = .ok inputs := by
  have hvalue (name : String) (hname : name ∈ releaseVariables) :
      ∃ value, env.required name = .ok value := by
    obtain ⟨value, hvalue⟩ := h.isSet name hname
    exact ⟨value, Environment.required_eq_ok.2 hvalue⟩
  have hnumber (name : String) (hname : name ∈ numberVariables)
      (hrequired : name ∈ releaseVariables) : ∃ n, env.requiredNumber name = .ok n := by
    obtain ⟨value, hvalue⟩ := h.isSet name hrequired
    obtain ⟨n, hn⟩ := h.numbers rfl name hname value hvalue
    exact ⟨n, Environment.requiredNumber_eq_ok.2 ⟨value, hvalue, hn⟩⟩
  have htime : ∃ seconds, env.optionalNumber timeVariable = .ok seconds := by
    cases hvalue : env timeVariable with
    | none => exact ⟨none, Environment.optionalNumber_eq_ok.2 (.inl ⟨hvalue, rfl⟩)⟩
    | some value =>
      obtain ⟨seconds, hread⟩ := h.time rfl value hvalue
      exact ⟨some seconds,
        Environment.optionalNumber_eq_ok.2 (.inr ⟨value, seconds, hvalue, hread, rfl⟩)⟩
  have htagged (version : String) (name : String) (hname : name ∈ releaseVariables) :
      ∃ image, (do return (← env.required name) ++ version) = Except.ok (ε := InputError) image :=
    exists_ok_bind (hvalue name hname) fun _ => ⟨_, rfl⟩
  -- one step for each variable, in the order in which they are read
  refine exists_ok_bind (hvalue _ (by decide)) fun fullVersion => ?_
  refine exists_ok_bind (hvalue _ (by decide)) fun targetFile => ?_
  refine exists_ok_bind (hnumber _ (by decide) (by decide)) fun major => ?_
  refine exists_ok_bind (hnumber _ (by decide) (by decide)) fun minor => ?_
  refine exists_ok_bind (hnumber _ (by decide) (by decide)) fun patch => ?_
  refine exists_ok_bind (hvalue _ (by decide)) fun currentVersion => ?_
  refine exists_ok_bind (htagged _ _ (by decide)) fun operatorImage => ?_
  refine exists_ok_bind (htagged _ _ (by decide)) fun quay => ?_
  refine exists_ok_bind (htagged _ _ (by decide)) fun clair => ?_
  refine exists_ok_bind (htagged _ _ (by decide)) fun builder => ?_
  refine exists_ok_bind (htagged _ _ (by decide)) fun builderQemu => ?_
  refine exists_ok_bind (hvalue _ (by decide)) fun postgres => ?_
  refine exists_ok_bind (hvalue _ (by decide)) fun postgresPrevious => ?_
  refine exists_ok_bind (hvalue _ (by decide)) fun clairPostgres => ?_
  refine exists_ok_bind (hvalue _ (by decide)) fun clairPostgresPrevious => ?_
  refine exists_ok_bind (hvalue _ (by decide)) fun redis => ?_
  exact exists_ok_bind htime fun timestamp => ⟨_, rfl⟩

/-- The patch of a service version can be built if there is a time stamp where one is asked for. -/
theorem exists_serviceVersionPatch_iff :
    (∃ operations, serviceVersionPatch inputs settings = .ok operations) ↔
      (settings.stampCreatedAt = true → ∃ seconds, inputs.timestamp = some seconds ∧
        firstSecond ≤ seconds ∧ seconds ≤ lastSecond) := by
  have hstamp : (∃ operations, serviceVersionPatch inputs settings = .ok operations) ↔
      ∃ stamps, stamp settings inputs = .ok stamps := by
    simp only [serviceVersionPatch_eq_ok]
    exact ⟨fun ⟨_, stamps, h, _⟩ => ⟨stamps, h⟩, fun ⟨stamps, h⟩ => ⟨_, stamps, h, rfl⟩⟩
  rw [hstamp]
  unfold stamp
  split_ifs with hasked
  · cases inputs.timestamp with
    | none => simp [hasked]
    | some seconds =>
      by_cases hrange : firstSecond ≤ seconds ∧ seconds ≤ lastSecond
      · simp [timeStamp?, hrange]
      · simp [timeStamp?, hrange, hasked]
  · simp [hasked]

end Release

theorem AnnotationInputs.ofEnvironment_eq_ok {env : Environment} {inputs : AnnotationInputs} :
    AnnotationInputs.ofEnvironment env = .ok inputs ↔
      env (Command.targetVariable .annotations) = some inputs.targetFile := by
  unfold AnnotationInputs.ofEnvironment
  rw [bind_eq_ok]
  simp only [Environment.required_eq_ok]
  constructor
  · rintro ⟨value, hset, h⟩
    rw [← Except.ok.inj h]
    exact hset
  · intro h
    exact ⟨inputs.targetFile, h, rfl⟩

/-! ### Commands -/

namespace Command

variable {command : Command} {env : Environment} {settings : Settings} {target : String}
  {operations : List Operation}

theorem targetVariable_mem_required (command : Command) :
    command.targetVariable ∈ command.required := by
  cases command <;> decide

/-- The target and the operations of a command, of which each has its own inputs. -/
inductive Supplied (env : Environment) (settings : Settings) :
    Command → String → List Operation → Prop
  | serviceVersion {inputs : ReleaseInputs} {operations : List Operation}
      (hinputs : ReleaseInputs.ofEnvironment env = .ok inputs)
      (hpatch : serviceVersionPatch inputs settings = .ok operations) :
      Supplied env settings .serviceVersion inputs.targetFile operations
  | annotations {inputs : AnnotationInputs}
      (hinputs : AnnotationInputs.ofEnvironment env = .ok inputs) :
      Supplied env settings .annotations inputs.targetFile (annotationsPatch settings)

theorem Supplied.job (h : command.Supplied env settings target operations) :
    command.job env settings = .ok (target, operations) := by
  cases h with
  | serviceVersion hinputs hpatch => simp only [Command.job, hinputs, hpatch]
  | annotations hinputs => simp only [Command.job, hinputs]

theorem supplied_of_job (h : command.job env settings = .ok (target, operations)) :
    command.Supplied env settings target operations := by
  unfold job at h
  cases command with
  | serviceVersion =>
    cases hinputs : ReleaseInputs.ofEnvironment env with
    | error error => simp [hinputs] at h
    | ok inputs =>
      cases hpatch : serviceVersionPatch inputs settings with
      | error error => simp [hinputs, hpatch] at h
      | ok found =>
        simp only [hinputs, hpatch, Except.ok.injEq, Prod.mk.injEq] at h
        obtain ⟨rfl, rfl⟩ := h
        exact .serviceVersion hinputs hpatch
  | annotations =>
    cases hinputs : AnnotationInputs.ofEnvironment env with
    | error error => simp [hinputs] at h
    | ok inputs =>
      simp only [hinputs, Except.ok.injEq, Prod.mk.injEq] at h
      obtain ⟨rfl, rfl⟩ := h
      exact .annotations hinputs

theorem hasInputs_of_job (h : command.job env settings = .ok (target, operations)) :
    command.HasInputs env ∧ command.HasStamp env settings ∧
      env command.targetVariable = some target := by
  cases supplied_of_job h with
  | serviceVersion hinputs hpatch =>
    obtain ⟨hvariables, hfile, htime⟩ := ReleaseInputs.ofEnvironment_eq_ok hinputs
    refine ⟨hvariables, fun _ hasked => ?_, hfile⟩
    obtain ⟨seconds, hseconds, hrange⟩ := exists_serviceVersionPatch_iff.1 ⟨_, hpatch⟩ hasked
    rw [hseconds] at htime
    rcases Environment.optionalNumber_eq_ok.1 htime with ⟨-, hnone⟩ | ⟨value, _, hset, hread, heq⟩
    · cases hnone
    · obtain rfl := Option.some.inj heq
      exact ⟨value, seconds, hset, hread, hrange⟩
  | annotations hinputs =>
    have hset := AnnotationInputs.ofEnvironment_eq_ok.1 hinputs
    have hvariables : Command.annotations.HasInputs env := by
      refine ⟨List.forall_mem_singleton.2 ⟨_, hset⟩, ?_, ?_⟩ <;>
        exact fun hother => by cases hother
    have hstamp : Command.annotations.HasStamp env settings := fun hother => by cases hother
    exact ⟨hvariables, hstamp, hset⟩

theorem exists_job_of_inputs (hinputs : command.HasInputs env)
    (hstamp : command.HasStamp env settings) :
    ∃ target operations, command.job env settings = .ok (target, operations) := by
  cases command with
  | serviceVersion =>
    obtain ⟨inputs, hread⟩ := ReleaseInputs.exists_of_hasInputs hinputs
    obtain ⟨-, -, htime⟩ := ReleaseInputs.ofEnvironment_eq_ok hread
    have hpatch : ∃ operations, serviceVersionPatch inputs settings = .ok operations := by
      refine exists_serviceVersionPatch_iff.2 fun hasked => ?_
      obtain ⟨value, seconds, hset, hseconds, hrange⟩ := hstamp rfl hasked
      rcases Environment.optionalNumber_eq_ok.1 htime with
        ⟨hnone, -⟩ | ⟨other, found, hset', hfound, heq⟩
      · rw [hset] at hnone
        cases hnone
      · obtain rfl := Option.some.inj (hset.symm.trans hset')
        obtain rfl := Except.ok.inj (hseconds.symm.trans hfound)
        exact ⟨seconds, heq, hrange⟩
    obtain ⟨operations, hpatch⟩ := hpatch
    exact ⟨inputs.targetFile, operations, (Supplied.serviceVersion hread hpatch).job⟩
  | annotations =>
    obtain ⟨target, hset⟩ := hinputs.isSet _ (targetVariable_mem_required .annotations)
    have hread : AnnotationInputs.ofEnvironment env = .ok ⟨target⟩ :=
      AnnotationInputs.ofEnvironment_eq_ok.2 hset
    exact ⟨target, annotationsPatch settings, (Supplied.annotations hread).job⟩

/-- **When a command has operations on a target**: no variable is missing or malformed, there is a
time stamp where one is asked for, and the target is the one that its variable names. -/
theorem exists_job_iff :
    (∃ operations, command.job env settings = .ok (target, operations)) ↔
      command.HasInputs env ∧ command.HasStamp env settings ∧
        env command.targetVariable = some target := by
  constructor
  · rintro ⟨operations, hjob⟩
    exact hasInputs_of_job hjob
  · rintro ⟨hinputs, hstamp, htarget⟩
    obtain ⟨found, operations, hjob⟩ := exists_job_of_inputs hinputs hstamp
    obtain ⟨-, -, hfound⟩ := hasInputs_of_job hjob
    obtain rfl := Option.some.inj (hfound.symm.trans htarget)
    exact ⟨operations, hjob⟩

end Command

end OperatorBundle
