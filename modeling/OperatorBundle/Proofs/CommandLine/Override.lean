import OperatorBundle.CommandLine.Run
import OperatorBundle.Proofs.Yaml.DistinctKeys

/-!
What arguments say about missing targets. A run keeps to the last policy that its arguments name; if
they name none, the flag `--strict` forbids missing targets. Values that are arguments of their own
are words, and nothing stands behind a terminator, so each argument can be looked at by itself.

* `override_of_parse`: the policy with which a run takes the place of the one in the settings.
-/

namespace OperatorBundle.CommandLine

open OperatorBundle.Yaml

/-- A word is the text of its argument. -/
theorem Argument.eq_of_word {text word : String} (h : Argument.ofText text = .word word) :
    word = text := by
  unfold Argument.ofText Argument.ofLong at h
  split at h
  case h_4 => exact (Argument.word.inj h).symm
  all_goals cases h

/-- What is said about missing targets: the policy that is named last, and whether the run is
strict. -/
structure Stance where
  named : Option Policy
  strict : Bool

namespace Stance

/-- Nothing is said. -/
def silent : Stance := ⟨none, false⟩

/-- What is said first and then. -/
def followed (earlier later : Stance) : Stance :=
  ⟨later.named.or earlier.named, earlier.strict || later.strict⟩

/-- The policy that takes the place of the one in the settings. A policy by name counts for more
than the flag. -/
def override (stance : Stance) : Option Policy :=
  stance.named.or (if stance.strict then some .fail else none)

@[simp] theorem silent_followed (stance : Stance) : silent.followed stance = stance := by
  simp [followed, silent]

@[simp] theorem followed_silent (stance : Stance) : stance.followed silent = stance := by
  simp [followed, silent]

theorem followed_assoc (a b c : Stance) :
    (a.followed b).followed c = a.followed (b.followed c) := by
  simp [followed, Option.or_assoc, Bool.or_assoc]

/-- The policy that a value names. -/
def ofValue (value : String) : Stance := ⟨(Policy.ofWord value).toOption, false⟩

/-- What the value of an option says. -/
def ofField (field : Field) (value : String) : Stance :=
  match field with
  | .onMissing => ofValue value
  | .config => silent

/-- What a flag says. -/
def ofFlag (flag : Flag) : Stance := ⟨none, flag = .strict⟩

/-- What an argument says, with the argument behind it as its value if it has none of its own. -/
def ofArgument (argument : Argument) (next : Option String) : Stance :=
  match argument with
  | .long name value =>
    match longNames.lookup name with
    | some (.field field) => ((value.or next).map (ofField field)).getD silent
    | some (.flag flag) => ofFlag flag
    | none => silent
  | _ => silent

/-- What arguments say. -/
def ofArguments : List String → Stance
  | [] => silent
  | text :: rest => (ofArgument (.ofText text) rest.head?).followed (ofArguments rest)

theorem ofArguments_word {text : String} {word : String} (h : Argument.ofText text = .word word)
    (rest : List String) : ofArguments (text :: rest) = ofArguments rest := by
  rw [ofArguments, h]
  exact silent_followed _

end Stance

/-! ### Levels -/

/-- What choices say. -/
def Choices.stance (choices : Choices) : Stance := ⟨choices.onMissing, choices.strict⟩

namespace Level

/-- What a level says, with the value that is still to be looked at. -/
def stance (level : Level) : Stance :=
  match level.pending with
  | some (field, value) => level.choices.stance.followed (.ofField field value)
  | none => level.choices.stance

variable {level next : Level} {choices changed : Choices} {flag : Flag} {field : Field}
  {value : String} {beforeCommand : Bool}

theorem stance_of_assign (h : choices.assign field value = .ok changed) :
    changed.stance = choices.stance.followed (.ofField field value) := by
  cases field with
  | config =>
    unfold Choices.assign at h
    dsimp only at h
    split_ifs at h
    rw [← Except.ok.inj h]
    exact (Stance.followed_silent _).symm
  | onMissing =>
    cases hnamed : choices.onMissing with
    | some policy => simp [Choices.assign, hnamed] at h
    | none =>
      cases hvalue : Policy.ofWord value with
      | error message => simp [Choices.assign, hnamed, hvalue] at h
      | ok policy =>
        simp only [Choices.assign, hnamed, hvalue, Except.ok.injEq] at h
        rw [← h]
        simp [Choices.stance, Stance.followed, Stance.ofField, Stance.ofValue, hvalue,
          Except.toOption]

theorem stance_of_raise (h : choices.raise beforeCommand flag = .ok changed) :
    changed.stance = choices.stance.followed (.ofFlag flag) := by
  unfold Choices.raise at h
  cases flag with
  | verbose =>
    rw [← Except.ok.inj h]
    simp [Choices.stance, Stance.followed, Stance.ofFlag]
  | strict | dryRun | json =>
    dsimp only at h
    split_ifs at h
    rw [← Except.ok.inj h]
    simp [Choices.stance, Stance.followed, Stance.ofFlag]
  | help | version => cases h

theorem stance_of_settle (h : level.settle = .ok changed) : changed.stance = level.stance := by
  obtain ⟨choices, _ | ⟨field, value⟩⟩ := level
  · rw [← Except.ok.inj h]
    rfl
  · exact stance_of_assign h

theorem stance_of_flag (h : level.flag beforeCommand flag = .ok next) :
    next.stance = level.stance.followed (.ofFlag flag) := by
  obtain ⟨choices, hsettle, h⟩ := bind_eq_ok.1 h
  obtain ⟨changed, hraise, h⟩ := bind_eq_ok.1 h
  rw [← Except.ok.inj h, ← stance_of_settle hsettle]
  exact stance_of_raise hraise

theorem stance_of_attach (h : level.attach field value = .ok next) :
    next.stance = level.stance.followed (.ofField field value) := by
  obtain ⟨choices, hsettle, h⟩ := bind_eq_ok.1 h
  obtain ⟨changed, hassign, h⟩ := bind_eq_ok.1 h
  rw [← Except.ok.inj h, ← stance_of_settle hsettle]
  exact stance_of_assign hassign

theorem stance_of_await (h : level.await field value = .ok next) :
    next.stance = level.stance.followed (.ofField field value) := by
  obtain ⟨choices, hsettle, h⟩ := bind_eq_ok.1 h
  rw [← Except.ok.inj h, ← stance_of_settle hsettle]
  rfl

/-- No letter stands for an option about missing targets. -/
theorem ne_of_letter {c : Char} {switch : Switch} (h : letters.lookup c = some switch) :
    switch ≠ .flag .strict ∧ switch ≠ .field .onMissing := by
  obtain ⟨before, behind, hletters, -⟩ := List.lookup_eq_some_iff.1 h
  have hall : ∀ entry ∈ letters,
      entry.2 ≠ Switch.flag .strict ∧ entry.2 ≠ Switch.field .onMissing := by decide
  exact hall (c, switch) (by simp [hletters])

theorem ofFlag_of_letter {c : Char} (h : letters.lookup c = some (.flag flag)) :
    Stance.ofFlag flag = .silent := by
  have hstrict : flag ≠ .strict := fun heq => (ne_of_letter h).1 (congrArg Switch.flag heq)
  simp [Stance.ofFlag, Stance.silent, hstrict]

theorem ofField_of_letter {c : Char} (h : letters.lookup c = some (.field field))
    (value : String) : Stance.ofField field value = .silent := by
  cases field with
  | config => rfl
  | onMissing => exact absurd rfl (ne_of_letter h).2

/-- A cluster says nothing about missing targets. -/
theorem stance_of_cluster {cs : List Char} {awaiting : Option Field}
    (h : cluster beforeCommand cs level = .ok (next, awaiting)) :
    next.stance = level.stance ∧
      ∀ field ∈ awaiting, ∀ value, Stance.ofField field value = .silent := by
  induction cs generalizing level with
  | nil =>
    obtain ⟨rfl, rfl⟩ := Prod.mk.inj (Except.ok.inj h)
    exact ⟨rfl, by simp⟩
  | cons c rest ih =>
    have hattach {field : Field} {value : String} (hletter : letters.lookup c = some (.field field))
        (hmore : (do return (← level.attach field value, none)) = Except.ok (next, awaiting)) :
        next.stance = level.stance ∧
          ∀ field ∈ awaiting, ∀ value, Stance.ofField field value = .silent := by
      obtain ⟨changed, hchanged, hmore⟩ := bind_eq_ok.1 hmore
      obtain ⟨rfl, rfl⟩ := Prod.mk.inj (Except.ok.inj hmore)
      rw [stance_of_attach hchanged, ofField_of_letter hletter, Stance.followed_silent]
      exact ⟨rfl, by simp⟩
    unfold cluster at h
    cases hletter : letters.lookup c with
    | none => simp [hletter] at h
    | some switch =>
      cases switch with
      | flag flag =>
        simp only [hletter] at h
        obtain ⟨changed, hchanged, hmore⟩ := bind_eq_ok.1 h
        obtain ⟨hnext, hawaiting⟩ := ih hmore
        rw [hnext, stance_of_flag hchanged, ofFlag_of_letter hletter, Stance.followed_silent]
        exact ⟨rfl, hawaiting⟩
      | field field =>
        cases rest with
        | nil =>
          simp only [hletter] at h
          obtain ⟨rfl, rfl⟩ := Prod.mk.inj (Except.ok.inj h)
          refine ⟨rfl, ?_⟩
          rintro found hfound value
          obtain rfl := Option.some.inj hfound
          exact ofField_of_letter hletter value
        | cons d value =>
          simp only [hletter] at h
          -- the value may stand behind an equals sign
          split at h
          case h_1 => simp_all
          case h_2 => simp_all
          case h_3 hfield _ => exact hattach (hletter.trans hfield) h
          case h_4 hfield _ _ => exact hattach (hletter.trans hfield) h
          case h_5 => simp_all

/-- An option whose value is with it, or that takes none. -/
theorem stance_of_option {argument : Argument}
    (h : level.option beforeCommand argument = .ok (next, none)) (behind : Option String) :
    next.stance = level.stance.followed (.ofArgument argument behind) := by
  cases argument with
  | terminator | word => cases h
  | cluster cs =>
    rw [(stance_of_cluster h).1]
    exact (Stance.followed_silent _).symm
  | long name value =>
    unfold Level.option Level.long at h
    unfold Stance.ofArgument
    cases hname : longNames.lookup name with
    | none => simp [hname] at h
    | some switch =>
      cases switch with
      | flag flag =>
        cases value with
        | some value => simp [hname] at h
        | none =>
          simp only [hname] at h ⊢
          obtain ⟨changed, hchanged, hmore⟩ := bind_eq_ok.1 h
          obtain ⟨rfl, -⟩ := Prod.mk.inj (Except.ok.inj hmore)
          exact stance_of_flag hchanged
      | field field =>
        cases value with
        | none => simp [hname] at h
        | some value =>
          simp only [hname] at h ⊢
          obtain ⟨changed, hchanged, hmore⟩ := bind_eq_ok.1 h
          obtain ⟨rfl, -⟩ := Prod.mk.inj (Except.ok.inj hmore)
          exact stance_of_attach hchanged

/-- An option whose value is the argument behind it. -/
theorem stance_of_awaiting {argument : Argument}
    (h : level.option beforeCommand argument = .ok (next, some field)) (value : String) :
    next.stance.followed (.ofField field value) =
      level.stance.followed (.ofArgument argument (some value)) := by
  cases argument with
  | terminator | word => cases h
  | cluster cs =>
    obtain ⟨hnext, hfield⟩ := stance_of_cluster h
    rw [hnext, hfield field rfl]
    rfl
  | long name own =>
    unfold Level.option Level.long at h
    unfold Stance.ofArgument
    cases hname : longNames.lookup name with
    | none => simp [hname] at h
    | some switch =>
      cases switch with
      | flag flag =>
        cases own with
        | some own => simp [hname] at h
        | none =>
          simp only [hname] at h
          obtain ⟨changed, -, hmore⟩ := bind_eq_ok.1 h
          cases hmore
      | field found =>
        cases own with
        | some own =>
          simp only [hname] at h
          obtain ⟨changed, -, hmore⟩ := bind_eq_ok.1 h
          cases hmore
        | none =>
          simp only [hname] at h ⊢
          cases h
          rfl

/-- **What a level says when it is read**: what it said before, and what the arguments say that are
read. -/
theorem stance_of_read {arguments rest : List String}
    (h : read beforeCommand arguments level = .ok (next, rest)) :
    level.stance.followed (.ofArguments arguments) = next.stance.followed (.ofArguments rest) := by
  induction hlength : arguments.length using Nat.strongRecOn generalizing arguments level with
  | _ length ih =>
    subst hlength
    cases arguments with
    | nil =>
      obtain ⟨rfl, rfl⟩ := Prod.mk.inj (Except.ok.inj h)
      rfl
    | cons text behind =>
      unfold read at h
      cases hargument : Argument.ofText text with
      | terminator =>
        simp only [hargument] at h
        split_ifs at h with hbehind
        obtain ⟨rfl, rfl⟩ := Prod.mk.inj (Except.ok.inj h)
        rw [List.isEmpty_iff.1 hbehind]
        show level.stance.followed ((Stance.ofArgument (.ofText text) none).followed .silent) = _
        rw [hargument]
        rfl
      | word word =>
        simp only [hargument] at h
        obtain ⟨rfl, rfl⟩ := Prod.mk.inj (Except.ok.inj h)
        rfl
      | long | cluster =>
        -- what an option says counts before what is said behind it
        simp only [hargument] at h
        rw [Stance.ofArguments, hargument, ← Stance.followed_assoc]
        obtain ⟨⟨between, awaiting⟩, hbetween, hbehind⟩ := bind_eq_ok.1 h
        cases awaiting with
        | none =>
          rw [← stance_of_option hbetween behind.head?]
          exact ih behind.length (by simp) hbehind rfl
        | some field =>
          cases behind with
          | nil => cases hbehind
          | cons value more =>
            cases hvalue : Argument.ofText value with
            | word word =>
              obtain rfl := Argument.eq_of_word hvalue
              simp only [hvalue, Argument.word?] at hbehind
              obtain ⟨after, hafter, hmore⟩ := bind_eq_ok.1 hbehind
              rw [List.head?_cons, ← stance_of_awaiting hbetween, ← stance_of_await hafter,
                Stance.ofArguments_word hvalue]
              exact ih more.length (by simp only [List.length_cons]; omega) hmore rfl
            | terminator | long | cluster =>
              simp only [hvalue, Argument.word?] at hbehind
              cases hbehind

/-- What a level says that is read from its start to its end. -/
theorem stance_of_finish (h : level.finish = .ok changed) : changed.stance = level.stance := by
  obtain ⟨choices, hsettle, hconsistent⟩ := bind_eq_ok.1 h
  unfold Choices.consistent at hconsistent
  split_ifs at hconsistent
  rw [← Except.ok.inj hconsistent]
  exact stance_of_settle hsettle

end Level

/-! ### Invocations -/

variable {arguments : List String} {choices : Choices} {invocation : Invocation}

theorem stance_of_choicesAfter (h : choicesAfter arguments = .ok choices) :
    choices.stance = .ofArguments arguments := by
  obtain ⟨⟨level, rest⟩, hread, hfinish⟩ := bind_eq_ok.1 h
  have hlevel := Level.stance_of_read hread
  cases rest with
  | cons => cases hfinish
  | nil =>
    rw [Level.stance_of_finish hfinish, ← Stance.followed_silent level.stance]
    exact hlevel.symm.trans (Stance.silent_followed _)

theorem stance_merge (first second : Choices) :
    (first.merge second).stance = first.stance.followed second.stance := rfl

theorem override_invocation (choices : Choices) (command : Command) :
    (choices.invocation command).override = choices.stance.override := rfl

/-- The word for a command is no option. -/
theorem Command.ofText_of_ofWord? {word : String} {command : Command}
    (h : Command.ofWord? word = some command) : Argument.ofText word = .word word := by
  have hword : command.word = word := by simpa using List.find?_some h
  rw [← hword]
  cases command <;> rfl

/-- **The policy that takes the place of the one in the settings** is the last one that the
arguments name, or the one that the flag `--strict` stands for. -/
theorem override_of_parse (h : parse arguments = .ok invocation) :
    invocation.override = (Stance.ofArguments arguments).override := by
  obtain ⟨⟨level, rest⟩, hread, h⟩ := bind_eq_ok.1 h
  have hlevel := Level.stance_of_read hread
  cases rest with
  | nil => cases h
  | cons word behind =>
    dsimp only at h
    split_ifs at h
    cases hcommand : Command.ofWord? word with
    | none => simp [hcommand] at h
    | some command =>
      simp only [hcommand] at h
      obtain ⟨after, hafter, h⟩ := bind_eq_ok.1 h
      obtain ⟨before, hbefore, h⟩ := bind_eq_ok.1 h
      have hword : Argument.ofText word = .word word := Command.ofText_of_ofWord? hcommand
      have hstance : (before.merge after).stance = .ofArguments arguments := by
        rw [stance_merge, Level.stance_of_finish hbefore, stance_of_choicesAfter hafter,
          ← Stance.ofArguments_word hword]
        exact hlevel.symm.trans (Stance.silent_followed _)
      rw [← Except.ok.inj h, override_invocation, hstance]

/-- Of two policies by name the last counts, and either counts for more than the flag. -/
example :
    let arguments := ["--on-missing=fail", "csv", "--strict", "--on-missing", "Ignore"]
    (Stance.ofArguments arguments).override = some .ignore := by decide +kernel

end OperatorBundle.CommandLine
