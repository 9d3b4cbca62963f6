import SharedMemoryFs.Kernel.VfsKernel

/-!
# Schedules

The step relation, read as an interpreter: a schedule names the steps, and one
that is not enabled is skipped.  Every schedule is a run.
-/

namespace SharedMemoryFs

open Foundation

inductive Action where
  | store (id : TaskId) (place : PlaceConfig) (key : Key) (input : FileInput)
  | resume (id : TaskId) (answer : Answer)
  | renameTree (id : TaskId) (place : PlaceConfig) (moves : List (EntryKey × EntryKey))
  | unpublish (place : PlaceConfig) (keys : List Key)
  | link
  | attach (id : LinkId)
  | update (id : LinkId)
  | message (id : LinkId)
  | acquire (id : LinkId) (consumer : ConsumerId) (slot : Slot)
  | release (id : LinkId) (consumer : ConsumerId)
  | exit (id : LinkId)
  | close (id : LinkId)

namespace VfsKernel

variable (fileExt : Key -> Ext) (k : VfsKernel)

def resumeTask (id : TaskId) (answer : Answer) : VfsKernel :=
  match k.tasks.get id with
  | none => k
  | some (Task.store t) =>
      match t.resume fileExt k.cache answer with
      | none => k
      | some result => k.finishStore id t result
  | some (Task.tree t) =>
      match t.resume k.main.files k.cache with
      | none => k
      | some result => k.finishTree id result

def attachLink (id : LinkId) (link : Link) : VfsKernel :=
  match link.worker with
  | Worker.handed snapshot =>
      k.setLink id { link with worker := Worker.attached (Thread.fromSnapshot snapshot) }
  | _ => k

def updateLink (id : LinkId) (link : Link) : VfsKernel :=
  match link.worker, link.down with
  | Worker.attached t, update :: rest => k.deliverUpdate id link t update rest
  | _, _ => k

def messageLink (id : LinkId) (link : Link) : VfsKernel :=
  match link.up with
  | message :: rest => k.deliverMessage id link message rest
  | [] => k

def acquireLink (id : LinkId) (link : Link) (consumer : ConsumerId) (slot : Slot) :
    VfsKernel :=
  match link.worker with
  | Worker.attached t =>
      if t.pins.held.has consumer then k
      else k.setLink id { link with worker := Worker.attached (t.acquire consumer slot) }
  | _ => k

def releaseLink (id : LinkId) (link : Link) (consumer : ConsumerId) : VfsKernel :=
  match link.worker with
  | Worker.attached t => k.releaseWorker id link t consumer
  | _ => k

def exitedLink (id : LinkId) (link : Link) : VfsKernel :=
  match link.worker with
  | Worker.exited => k.closeLink id
  | _ => k

/-- Do something with a registered link. -/
def onLink (id : LinkId) (act : Link -> VfsKernel) : VfsKernel :=
  (k.links.get id).elim k act

def perform (k : VfsKernel) : Action -> VfsKernel
  | Action.store id place key input =>
      if k.tasks.has id then k else k.startStore fileExt id (Target.own []) place key input
  | Action.resume id answer => k.resumeTask fileExt id answer
  | Action.renameTree id place moves =>
      if k.tasks.has id then k else k.startTree id place moves
  | Action.unpublish place keys => k.unpublishVirtual place keys
  | Action.link => k.newLink
  | Action.attach id => k.onLink id (k.attachLink id)
  | Action.update id => k.onLink id (k.updateLink id)
  | Action.message id => k.onLink id (k.messageLink id)
  | Action.acquire id consumer slot =>
      k.onLink id (fun link => k.acquireLink id link consumer slot)
  | Action.release id consumer => k.onLink id (fun link => k.releaseLink id link consumer)
  | Action.exit id =>
      k.onLink id (fun link => k.setLink id { link with worker := Worker.exited })
  | Action.close id => k.onLink id (k.exitedLink id)

def run (k : VfsKernel) (schedule : List Action) : VfsKernel :=
  schedule.foldl (perform fileExt) k

/-!
# A schedule is a run
-/

variable {fileExt} {k}

theorem run_publication {k' : VfsKernel} (h : Publication fileExt k k') :
    Run fileExt k k' := Run.one (Step.publication h)

theorem run_resumeTask (id : TaskId) (answer : Answer) :
    Run fileExt k (k.resumeTask fileExt id answer) := by
  unfold resumeTask
  cases hget : k.tasks.get id with
  | none => exact Run.refl
  | some task =>
      cases task with
      | store t =>
          simp only
          cases hresume : t.resume fileExt k.cache answer with
          | none => exact Run.refl
          | some result => exact run_publication (Publication.resumeStore id t answer result hget hresume)
      | tree t =>
          simp only
          cases hresume : t.resume k.main.files k.cache with
          | none => exact Run.refl
          | some result => exact run_publication (Publication.resumeTree id t result hget hresume)

theorem run_onLink {id : LinkId} {act : Link -> VfsKernel}
    (hact : forall link, k.links.get id = some link -> Run fileExt k (act link)) :
    Run fileExt k (k.onLink id act) := by
  unfold onLink
  cases hget : k.links.get id with
  | none => exact Run.refl
  | some link => exact hact link hget

theorem get_eq_none_of_has {m : OrderedMap alpha beta} [DecidableEq alpha] {key : alpha}
    (h : ¬ m.has key = true) : m.get key = none := by
  cases hget : m.get key with
  | none => rfl
  | some value => exact absurd (OrderedMap.has_iff.mpr ⟨value, hget⟩) h

theorem run_perform (k : VfsKernel) (action : Action) :
    Run fileExt k (k.perform fileExt action) := by
  cases action with
  | store id place key input =>
      simp only [perform]
      split_ifs with hhas
      · exact Run.refl
      · refine run_publication (Publication.startStore id _ place key input (get_eq_none_of_has hhas) ?_)
        intro epoch htarget
        cases htarget
  | resume id answer => exact run_resumeTask id answer
  | renameTree id place moves =>
      simp only [perform]
      split_ifs with hhas
      · exact Run.refl
      · exact run_publication (Publication.startTree id place moves (get_eq_none_of_has hhas))
  | unpublish place keys => exact run_publication (Publication.unpublishVirtual place keys)
  | link => exact Run.one Step.link
  | attach id =>
      refine run_onLink ?_
      intro link hget
      unfold attachLink
      cases hworker : link.worker with
      | handed snapshot => exact Run.one (Step.attach id link snapshot hget hworker)
      | attached t => exact Run.refl
      | exited => exact Run.refl
  | update id =>
      refine run_onLink ?_
      intro link hget
      unfold updateLink
      cases hworker : link.worker with
      | handed snapshot => exact Run.refl
      | attached t =>
          cases hdown : link.down with
          | nil => exact Run.refl
          | cons update rest =>
              exact Run.one (Step.deliverUpdate id link t update rest hget hworker hdown)
      | exited => exact Run.refl
  | message id =>
      refine run_onLink ?_
      intro link hget
      unfold messageLink
      cases hup : link.up with
      | nil => exact Run.refl
      | cons message rest => exact Run.one (Step.deliverMessage id link message rest hget hup)
  | acquire id consumer slot =>
      refine run_onLink ?_
      intro link hget
      unfold acquireLink
      cases hworker : link.worker with
      | handed snapshot => exact Run.refl
      | attached t =>
          simp only
          split_ifs with hhas
          · exact Run.refl
          · exact Run.one (Step.acquireWorker id link t consumer slot hget hworker
              (get_eq_none_of_has hhas))
      | exited => exact Run.refl
  | release id consumer =>
      refine run_onLink ?_
      intro link hget
      unfold releaseLink
      cases hworker : link.worker with
      | handed snapshot => exact Run.refl
      | attached t => exact Run.one (Step.releaseWorker id link t consumer hget hworker)
      | exited => exact Run.refl
  | exit id =>
      refine run_onLink ?_
      intro link hget
      exact Run.one (Step.exit id link hget)
  | close id =>
      refine run_onLink ?_
      intro link hget
      unfold exitedLink
      cases hworker : link.worker with
      | handed snapshot => exact Run.refl
      | attached t => exact Run.refl
      | exited => exact Run.one (Step.close id link hget hworker)

theorem run_schedule (k : VfsKernel) (schedule : List Action) :
    Run fileExt k (k.run fileExt schedule) := by
  induction schedule generalizing k with
  | nil => exact Run.refl
  | cons action rest ih => exact (run_perform k action).trans (ih _)

/-!
# An example schedule

A file is published, a worker links, attaches and pins it, and the file is
published again while the worker has not seen the second update.
-/

def demoPlace : PlaceConfig :=
  { name := "demo"
    maxFileSize := 8
    require := none
    fs := none
    prepare := [] }

def demoSlot : Slot := ⟨"demo", EntryKey.ofSource ['a']⟩

def demoExt (_ : Key) : Ext := ""

def demoAnswer : Answer :=
  { read := none, compile := fun _ => none, encode := fun _ => none }

/-- One publication of the file, from its request to its flush. -/
def demoWrite (data : Bytes) : List Action :=
  [Action.store 0 demoPlace ['a']
      { data := some data, path := none, stat := { size := data.length, mtimeMs := 0 } },
    Action.resume 0 demoAnswer, Action.resume 0 demoAnswer, Action.resume 0 demoAnswer]

def demoPublished : VfsKernel := (initial 16 8 0).run demoExt (demoWrite [1, 2])

def demo : VfsKernel :=
  demoPublished.newLink.run demoExt
    ([Action.attach 1, Action.acquire 1 0 demoSlot] ++ demoWrite [3, 4, 5])

theorem demoPublished_reachable : Reachable demoExt demoPublished :=
  (run_schedule _ _).reachable (Reachable.initial 16 8 0)

theorem demo_run : Run demoExt demoPublished.newLink demo := run_schedule _ _

theorem demo_reachable : Reachable demoExt demo :=
  demo_run.reachable (demoPublished_reachable.step Step.link)

end VfsKernel
end SharedMemoryFs
