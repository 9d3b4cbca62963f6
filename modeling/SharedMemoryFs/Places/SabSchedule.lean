import SharedMemoryFs.Places.SabStore

/-!
# Schedules of a shared virtual place

The steps of overlapping mutations, read as an interpreter.  A step that is not
enabled is skipped, so every schedule is a run.
-/

namespace SharedMemoryFs

open Foundation

namespace SabPlace

inductive Action where
  | request (op : Mutation)
  | start (id : Nat) (now : Nat)
  | copy (id : Nat)
  | commit (id : Nat) (env : Env)
  | fail (id : Nat) (refusal : Refusal)
  | settle (id : Nat)
  | release (id : Nat)

/-- The result of a task whose turn is over. -/
def MutationTask.result (task : MutationTask) : Option (Except Refusal Unit) :=
  match task.status with
  | Status.settled result => some result
  | _ => none

variable (place : Place) (s : SabPlace)

def settledTask (id : Nat) : Bool :=
  s.tasks[id]?.any (fun task => (MutationTask.result task).isSome)

def startTask (id : Nat) (now : Nat) (task : MutationTask) : SabPlace :=
  match task.status with
  | Status.queued =>
      if task.queue.prior.all s.settledTask then s.start place id task now else s
  | _ => s

def copyTask (id : Nat) (task : MutationTask) : SabPlace :=
  match task.status with
  | Status.copying copies (move :: rest) now =>
      match s.files.get move.1 with
      | some file =>
          s.setTask id task
            (Status.copying (copies ++ [(move.1, move.2, SabStore.copyOf file)]) rest now)
      | none => s
  | _ => s

def commitTask (id : Nat) (env : Env) (task : MutationTask) : SabPlace :=
  match task.status with
  | Status.storing target input removed now =>
      match SabStore.storeShared place target input { env with now := now } with
      | Except.ok changes =>
          s.committed id task { env with now := now } false
            (SabStore.unstaged place removed ++ changes)
            (Status.ended (some target) (Except.ok ()))
      | Except.error _ => s
  | Status.copying copies [] now =>
      s.committed id task (plainEnv now) true (SabStore.treeChanges copies)
        (Status.ended none (Except.ok ()))
  | _ => s

def failTask (id : Nat) (refusal : Refusal) (task : MutationTask) : SabPlace :=
  match task.status with
  | Status.storing target _ _ _ =>
      s.setTask id task (Status.ended (some target) (Except.error refusal))
  | Status.copying _ _ _ => s.setTask id task (Status.ended none (Except.error refusal))
  | _ => s

def settleTask (id : Nat) (task : MutationTask) : SabPlace :=
  match task.status with
  | Status.ended creating result => s.settle id task creating result
  | _ => s

def releaseTask (id : Nat) (task : MutationTask) : SabPlace :=
  match MutationTask.result task with
  | some _ => { s with locks := s.locks.release id task.queue.keys }
  | none => s

/-- Do something with an accepted task. -/
def onTask (id : Nat) (act : MutationTask -> SabPlace) : SabPlace :=
  (s.tasks[id]?).elim s act

def perform : Action -> SabPlace
  | Action.request op => if op.Canonical then s.request op else s
  | Action.start id now => s.onTask id (s.startTask place id now)
  | Action.copy id => s.onTask id (s.copyTask id)
  | Action.commit id env => s.onTask id (s.commitTask place id env)
  | Action.fail id refusal => s.onTask id (s.failTask id refusal)
  | Action.settle id => s.onTask id (s.settleTask id)
  | Action.release id => s.onTask id (s.releaseTask id)

def runSchedule (schedule : List Action) : SabPlace :=
  schedule.foldl (perform place) s

/-!
# A schedule is a run
-/

variable {place} {s} {files : Files}

theorem result_eq_some {task : MutationTask} {result : Except Refusal Unit}
    (h : MutationTask.result task = some result) : task.status = Status.settled result := by
  unfold MutationTask.result at h
  split at h
  · rename_i hstatus
    rw [hstatus, Option.some.inj h]
  · cases h

theorem settledTask_iff {id : Nat} :
    s.settledTask id = true <->
      exists task result, s.tasks[id]? = some task ∧ task.status = Status.settled result := by
  unfold settledTask
  constructor
  · intro h
    rcases Option.any_eq_true _ _ |>.mp h with ⟨task, hget, hsome⟩
    rcases Option.isSome_iff_exists.mp hsome with ⟨result, hresult⟩
    exact ⟨task, result, hget, result_eq_some hresult⟩
  · intro h
    rcases h with ⟨task, result, hget, hstatus⟩
    rw [hget, Option.any_some, MutationTask.result, hstatus]
    rfl

theorem Reachable.onTask (h : Reachable place files s) {id : Nat}
    {act : MutationTask -> SabPlace}
    (hact : forall task, s.tasks[id]? = some task -> Reachable place files (act task)) :
    Reachable place files (s.onTask id act) := by
  unfold SabPlace.onTask
  cases hget : s.tasks[id]? with
  | none => exact h
  | some task => exact hact task hget

theorem Reachable.startTask (h : Reachable place files s) {id : Nat} (now : Nat)
    {task : MutationTask} (hget : s.tasks[id]? = some task) :
    Reachable place files (s.startTask place id now task) := by
  unfold SabPlace.startTask
  split
  · rename_i hstatus
    split_ifs with hprior
    · refine h.step (Step.start id task now hget hstatus ?_)
      intro m hm
      exact settledTask_iff.mp (List.all_eq_true.mp hprior m hm)
    · exact h
  · exact h

theorem Reachable.copyTask (h : Reachable place files s) {id : Nat} {task : MutationTask}
    (hget : s.tasks[id]? = some task) : Reachable place files (s.copyTask id task) := by
  unfold SabPlace.copyTask
  split
  · rename_i copies move rest now hstatus
    split
    · rename_i file hfile
      exact h.step (Step.copy id task copies move rest now file hget hstatus hfile)
    · exact h
  · exact h

theorem Reachable.commitTask (h : Reachable place files s) {id : Nat} (env : Env)
    {task : MutationTask} (hget : s.tasks[id]? = some task) :
    Reachable place files (s.commitTask place id env task) := by
  unfold SabPlace.commitTask
  split
  · rename_i target input removed now hstatus
    split
    · rename_i changes hstore
      exact h.step (Step.commit id task target input removed { env with now := now } changes
        hget hstatus hstore)
    · exact h
  · rename_i copies now hstatus
    exact h.step (Step.commitTree id task copies now hget hstatus)
  · exact h

theorem Reachable.failTask (h : Reachable place files s) {id : Nat} (refusal : Refusal)
    {task : MutationTask} (hget : s.tasks[id]? = some task) :
    Reachable place files (s.failTask id refusal task) := by
  unfold SabPlace.failTask
  split
  · rename_i target input removed now hstatus
    exact h.step (Step.fail id task target input removed now refusal hget hstatus)
  · rename_i copies rest now hstatus
    exact h.step (Step.failTree id task copies rest now refusal hget hstatus)
  · exact h

theorem Reachable.settleTask (h : Reachable place files s) {id : Nat} {task : MutationTask}
    (hget : s.tasks[id]? = some task) : Reachable place files (s.settleTask id task) := by
  unfold SabPlace.settleTask
  split
  · rename_i creating result hstatus
    exact h.step (Step.settle id task creating result hget hstatus)
  · exact h

theorem Reachable.releaseTask (h : Reachable place files s) {id : Nat} {task : MutationTask}
    (hget : s.tasks[id]? = some task) : Reachable place files (s.releaseTask id task) := by
  unfold SabPlace.releaseTask
  cases hresult : MutationTask.result task with
  | none => exact h
  | some result => exact h.step (Step.release id task result hget (result_eq_some hresult))

theorem Reachable.perform (h : Reachable place files s) (action : Action) :
    Reachable place files (s.perform place action) := by
  cases action with
  | request op =>
      show Reachable place files (if op.Canonical then s.request op else s)
      split_ifs with hop
      · exact h.step (Step.request op hop)
      · exact h
  | start id now => exact h.onTask (fun _ hget => h.startTask now hget)
  | copy id => exact h.onTask (fun _ hget => h.copyTask hget)
  | commit id env => exact h.onTask (fun _ hget => h.commitTask env hget)
  | fail id refusal => exact h.onTask (fun _ hget => h.failTask refusal hget)
  | settle id => exact h.onTask (fun _ hget => h.settleTask hget)
  | release id => exact h.onTask (fun _ hget => h.releaseTask hget)

theorem Reachable.schedule (h : Reachable place files s) (schedule : List Action) :
    Reachable place files (s.runSchedule place schedule) := by
  induction schedule generalizing s with
  | nil => exact h
  | cons action rest ih => exact ih (h.perform action)

end SabPlace

end SharedMemoryFs
