import OperatorBundle.Files

/-!
Plans: what a run does with files, step by step, each step depending on how the ones before it
ended. A plan can be carried out on any storage, such as files held in memory, and by a program on
the files of its machine.
-/

namespace OperatorBundle

/-- A plan that ends with a result: it is done, reads a file, or writes one. -/
inductive Plan (α : Type)
  | done (result : α)
  | read (path : String) (next : Except FileFault String → Plan α)
  | write (path text : String) (next : Except FileFault Unit → Plan α)

/-- What plans are carried out on: files that are read and written, with any faults. -/
structure Storage (σ : Type) where
  read : σ → String → Except FileFault String
  write : σ → String → String → Except FileFault σ

/-- Files held in memory. -/
def Files.storage {machine : Machine} : Storage (Files machine) := ⟨Files.read, Files.write⟩

namespace Plan

variable {σ α β : Type} {machine : Machine}

/-- A plan that goes on after another one with its result. -/
def bind (plan : Plan α) (next : α → Plan β) : Plan β :=
  match plan with
  | .done result => next result
  | .read path rest => .read path fun content => (rest content).bind next
  | .write path text rest => .write path text fun written => (rest written).bind next

instance : Monad Plan where
  pure := .done
  bind := bind

/-- The result of a plan on a storage, and the state that it leaves. A write that fails leaves the
state as it was. -/
def runOn (storage : Storage σ) : Plan α → σ → α × σ
  | .done result, state => (result, state)
  | .read path next, state => (next (storage.read state path)).runOn storage state
  | .write path text next, state =>
    match storage.write state path text with
    | .ok changed => (next (.ok ())).runOn storage changed
    | .error fault => (next (.error fault)).runOn storage state

/-- The result of a plan on files held in memory, and the files that it leaves. -/
def run (plan : Plan α) (files : Files machine) : α × Files machine :=
  plan.runOn Files.storage files

/-- A plan after a plan runs on the state that the first one leaves. -/
theorem runOn_bind (storage : Storage σ) (plan : Plan α) (next : α → Plan β) (state : σ) :
    (plan.bind next).runOn storage state =
      (next (plan.runOn storage state).1).runOn storage (plan.runOn storage state).2 := by
  induction plan generalizing state with
  | done result => rfl
  | read path rest ih => exact ih (storage.read state path) state
  | write path text rest ih =>
    simp only [bind, runOn]
    cases storage.write state path text with
    | ok changed => exact ih (.ok ()) changed
    | error fault => exact ih (.error fault) state

end Plan

end OperatorBundle
