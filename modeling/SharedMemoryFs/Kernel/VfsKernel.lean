import SharedMemoryFs.Kernel.Retirement
import SharedMemoryFs.Kernel.Publication

/-!
# The kernel and its links

The main kernel, one link per worker, and the steps of the whole system.  A
link is the main thread's port, the two message queues behind it and the worker
at the other end.  Closing the kernel is outside this model: every step is one
of a kernel that is not closed.
-/

namespace SharedMemoryFs

open Foundation

abbrev EpochId := Nat

abbrev TaskId := Nat

/-- The messages {lit}`vfs-ack` and {lit}`vfs-release`. -/
inductive UpMessage where
  | ack (updateId : UpdateId) (retained : List RetireId)
  | release (retireIds : List RetireId)

inductive Worker where
  | handed (snapshot : Snapshot)
  | attached (thread : Thread)
  | exited

/-- One link.  {lit}`since` counts the updates sent before it existed,
{lit}`applied` those its worker applied, and {lit}`processed` lists the messages
the main thread handled; no operation reads the three. -/
structure Link where
  worker : Worker
  down : List Update
  up : List UpMessage
  since : Nat
  applied : Nat
  processed : List UpMessage

def Link.post (update : Update) (link : Link) : Link :=
  { link with down := link.down ++ [update] }

/-- The main thread's state.  {lit}`history` and {lit}`updates` record the index
after every update and the update itself; no operation reads them. -/
structure VfsKernel where
  threshold : ℚ
  cache : FilesystemCache
  main : Thread
  links : OrderedMap LinkId Link
  nextLinkId : Nat
  retirement : Retirement
  epochs : OrderedMap EpochId Changes
  tasks : OrderedMap TaskId Task
  history : List Index
  updates : List Update

/-!
# Committing an epoch
-/

/-- What one update reports, collected over the changes of an epoch. -/
structure Commit where
  entries : List (Slot × Entry)
  removals : List Slot
  olds : List (Slot × Entry)

/-- The replaced version of one slot, when it owns bytes of the pool. -/
def retiring (slot : Slot) (old : Option Entry) : List (Slot × Entry) :=
  match old with
  | some entry => if entry.extent?.isSome then [(slot, entry)] else []
  | none => []

/-- The loop of {lit}`#flush` over the changes of an epoch. -/
def commit : FilesystemCache -> List (Slot × Option Entry) -> FilesystemCache × Commit
  | c, [] => (c, { entries := [], removals := [], olds := [] })
  | c, (slot, some entry) :: rest =>
      let put := c.put slot entry
      let next := commit put.1 rest
      (next.1,
        { entries := (slot, entry) :: next.2.entries
          removals := next.2.removals
          olds := retiring slot put.2 ++ next.2.olds })
  | c, (slot, none) :: rest =>
      let removed := c.remove slot
      let next := commit removed.1 rest
      (next.1,
        { entries := next.2.entries
          removals := if removed.2.isSome then slot :: next.2.removals
            else next.2.removals
          olds := retiring slot removed.2 ++ next.2.olds })

def segmentsOf (entries : List (Slot × Entry)) : Finset SegmentId :=
  (entries.filterMap (fun e => e.2.extent?.map Extent.segmentId)).toFinset

namespace VfsKernel

def initial (limit segmentSize : Nat) (threshold : ℚ) : VfsKernel :=
  { threshold := threshold
    cache := FilesystemCache.new limit segmentSize
    main := Thread.new
    links := OrderedMap.empty
    nextLinkId := 0
    retirement := Retirement.new
    epochs := OrderedMap.empty
    tasks := OrderedMap.empty
    history := [OrderedMap.empty]
    updates := [] }

/-- Tell every thread about a commit: retire the replaced versions, apply the
update here and post it to every link.  The ids left are to be settled. -/
def announce (k : VfsKernel) (cache : FilesystemCache) (changes : Commit) :
    VfsKernel × List RetireId :=
  let updateId := k.retirement.nextUpdateId + 1
  let retire := Retirement.retire updateId
    { k.retirement with nextUpdateId := updateId } changes.olds
  let update : Update :=
    { updateId := updateId
      entries := changes.entries
      removals := changes.removals
      retired := retire.2
      newSegments := segmentsOf changes.entries }
  let applied := k.main.apply update
  let held := applied.2.foldl (Retirement.addHolder Holder.main) retire.1
  let tracked := held.track k.links.keys.toFinset updateId (retire.2.map Prod.snd)
  ({ k with
    cache := cache
    main := applied.1
    links := k.links.mapValues (fun _ link => link.post update)
    retirement := tracked.1
    history := k.history ++ [cache.index]
    updates := k.updates ++ [update] }, tracked.2)

/-- {lit}`#flush`, given {lit}`#settle` for the versions no worker has to ACK. -/
def flush (settle : VfsKernel -> List RetireId -> VfsKernel) (k : VfsKernel)
    (changes : List (Slot × Option Entry)) : VfsKernel :=
  let committed := commit k.cache changes
  if committed.2.entries.isEmpty && committed.2.removals.isEmpty then
    { k with cache := committed.1 }
  else
    let announced := k.announce committed.1 committed.2
    settle announced.1 announced.2

/-- The first half of {lit}`#settle`: free what nothing holds any more. -/
def freeSettled (k : VfsKernel) (ids : List RetireId) : VfsKernel × Bool :=
  let sweep := k.retirement.sweep ids
  ({ k with retirement := sweep.1, cache := freeAll k.cache sweep.2 },
    !sweep.2.isEmpty)

/-- {lit}`#compact`.  A plan names each slot once, so staging its moves into a
new epoch supersedes nothing. -/
def compact (settle : VfsKernel -> List RetireId -> VfsKernel) (k : VfsKernel) : VfsKernel :=
  match k.cache.compact k.threshold with
  | (cache, none) => { k with cache := cache }
  | (cache, some moves) =>
      flush settle { k with cache := cache }
        (moves.map (fun move => (move.slot, some move.entry)))

def settleWithin : Nat -> VfsKernel -> List RetireId -> VfsKernel
  | 0, k, ids => (k.freeSettled ids).1
  | fuel + 1, k, ids =>
      let freed := k.freeSettled ids
      if freed.2 then compact (settleWithin fuel) freed.1 else freed.1

/-- {lit}`#settle`.  Every nested compaction closes one more registered segment,
so their number bounds the recursion. -/
def settle (k : VfsKernel) (ids : List RetireId) : VfsKernel :=
  settleWithin k.cache.registry.spaces.size k ids

def flushNow (k : VfsKernel) (changes : List (Slot × Option Entry)) : VfsKernel :=
  flush settle k changes

/-!
# Handlers
-/

def handleAck (k : VfsKernel) (updateId : UpdateId) (link : LinkId)
    (retained : List RetireId) : VfsKernel :=
  let acked := k.retirement.handleAck updateId link retained
  settle { k with retirement := acked.1 } acked.2

def handleRelease (k : VfsKernel) (holder : Holder) (retireIds : List RetireId) :
    VfsKernel :=
  let released := Retirement.handleRelease holder k.retirement retireIds
  settle { k with retirement := released.1 } released.2

def handleWorkerExit (k : VfsKernel) (link : LinkId) : VfsKernel :=
  let exited := k.retirement.handleWorkerExit link
  settle { k with retirement := exited.1 } exited.2

def handle (k : VfsKernel) (link : LinkId) (message : UpMessage) : VfsKernel :=
  match message with
  | UpMessage.ack updateId retained => k.handleAck updateId link retained
  | UpMessage.release retireIds => k.handleRelease (Holder.link link) retireIds

def snapshot (k : VfsKernel) : Snapshot :=
  { segments := k.cache.registry.pool.segments.toFinset
    entries := k.cache.index }

/-- {lit}`link()`. -/
def newLink (k : VfsKernel) : VfsKernel :=
  { k with
    nextLinkId := k.nextLinkId + 1
    links := k.links.set (k.nextLinkId + 1)
      { worker := Worker.handed k.snapshot
        down := []
        up := []
        since := k.updates.length
        applied := 0
        processed := [] } }

def setLink (k : VfsKernel) (id : LinkId) (link : Link) : VfsKernel :=
  { k with links := k.links.set id link }

/-- The close event of the main thread's port. -/
def closeLink (k : VfsKernel) (id : LinkId) : VfsKernel :=
  handleWorkerExit { k with links := k.links.delete id } id

/-!
# Publications
-/

/-- Stage changes into an epoch others stage into as well. -/
def stageInto (k : VfsKernel) (epoch : EpochId) (changes : List (Slot × Option Entry)) :
    VfsKernel :=
  let staged := stageAll (k.cache, (k.epochs.get epoch).getD OrderedMap.empty) changes
  { k with cache := staged.1, epochs := k.epochs.set epoch staged.2 }

/-- Stage changes into a new epoch and flush it at once. -/
def publish (k : VfsKernel) (changes : List (Slot × Option Entry)) : VfsKernel :=
  let staged := stageAll (k.cache, OrderedMap.empty) changes
  flushNow { k with cache := staged.1 } staged.2.entries

def unpublishVirtual (k : VfsKernel) (place : PlaceConfig) (keys : List Key) : VfsKernel :=
  k.publish (unstaged place keys)

def flushEpoch (k : VfsKernel) (epoch : EpochId) (changes : Changes) : VfsKernel :=
  flushNow { k with epochs := k.epochs.delete epoch } changes.entries

/-- What the end of a {lit}`#storeShared` does in the epoch it publishes for. -/
def finishStore (k : VfsKernel) (id : TaskId) (t : Store)
    (result : FilesystemCache × Progress Store) : VfsKernel :=
  match result with
  | (cache, Progress.suspended next) =>
      { k with cache := cache, tasks := k.tasks.set id (Task.store next) }
  | (cache, Progress.failed) => { k with cache := cache, tasks := k.tasks.delete id }
  | (cache, Progress.done changes) =>
      let ended := { k with cache := cache, tasks := k.tasks.delete id }
      match t.target with
      | Target.shared epoch => ended.stageInto epoch changes
      | Target.own removed => ended.publish (unstaged t.place removed ++ changes)

def finishTree (k : VfsKernel) (id : TaskId)
    (result : FilesystemCache × Progress Tree) : VfsKernel :=
  match result with
  | (cache, Progress.suspended next) =>
      { k with cache := cache, tasks := k.tasks.set id (Task.tree next) }
  | (cache, Progress.failed) => { k with cache := cache, tasks := k.tasks.delete id }
  | (cache, Progress.done changes) =>
      { k with cache := cache, tasks := k.tasks.delete id }.publish changes

def startStore (fileExt : Key -> Ext) (k : VfsKernel) (id : TaskId) (target : Target)
    (place : PlaceConfig) (key : Key) (input : FileInput) : VfsKernel :=
  let started := Store.start fileExt target place key input k.cache
  { k with cache := started.1, tasks := k.tasks.set id (Task.store started.2) }

def startTree (k : VfsKernel) (id : TaskId) (place : PlaceConfig)
    (moves : List (EntryKey × EntryKey)) : VfsKernel :=
  k.finishTree id (Tree.advance place k.main.files k.cache [] moves)

/-- No publication still stages into {lit}`epoch`. -/
def Quiet (k : VfsKernel) (epoch : EpochId) : Prop :=
  forall id t, k.tasks.get id = some (Task.store t) -> t.target ≠ Target.shared epoch

/-!
# Workers
-/

def deliverUpdate (k : VfsKernel) (id : LinkId) (link : Link) (t : Thread)
    (update : Update) (rest : List Update) : VfsKernel :=
  let applied := t.apply update
  k.setLink id
    { link with
      worker := Worker.attached applied.1
      down := rest
      up := link.up ++ [UpMessage.ack update.updateId applied.2]
      applied := link.applied + 1 }

def deliverMessage (k : VfsKernel) (id : LinkId) (link : Link) (message : UpMessage)
    (rest : List UpMessage) : VfsKernel :=
  (k.setLink id { link with up := rest, processed := message :: link.processed }).handle
    id message

def releaseMain (k : VfsKernel) (consumer : ConsumerId) : VfsKernel :=
  let released := k.main.release consumer
  match released.2 with
  | none => { k with main := released.1 }
  | some id => { k with main := released.1 }.handleRelease Holder.main [id]

def releaseWorker (k : VfsKernel) (id : LinkId) (link : Link) (t : Thread)
    (consumer : ConsumerId) : VfsKernel :=
  let released := t.release consumer
  k.setLink id
    { link with
      worker := Worker.attached released.1
      up := link.up ++ released.2.toList.map (fun id => UpMessage.release [id]) }

end VfsKernel

/-!
# Steps
-/

open VfsKernel in
/-- One step of the epochs and publications of the main thread. -/
inductive Publication (fileExt : Key -> Ext) : VfsKernel -> VfsKernel -> Prop where
  | openEpoch (epoch : EpochId) :
      k.epochs.get epoch = none ->
      Publication fileExt k { k with epochs := k.epochs.set epoch OrderedMap.empty }
  | unstage (epoch : EpochId) (place : PlaceConfig) (keys : List Key) :
      k.epochs.has epoch = true ->
      Publication fileExt k (k.stageInto epoch (unstaged place keys))
  | flushEpoch (epoch : EpochId) (changes : Changes) :
      k.epochs.get epoch = some changes -> k.Quiet epoch ->
      Publication fileExt k (k.flushEpoch epoch changes)
  | unpublishVirtual (place : PlaceConfig) (keys : List Key) :
      Publication fileExt k (k.unpublishVirtual place keys)
  | startStore (id : TaskId) (target : Target) (place : PlaceConfig) (key : Key)
      (input : FileInput) :
      k.tasks.get id = none ->
      (forall epoch, target = Target.shared epoch -> k.epochs.has epoch = true) ->
      Publication fileExt k (k.startStore fileExt id target place key input)
  | filled (id : TaskId) (t : Store) (ok : Bool) (data : Bytes)
      (result : FilesystemCache × Store) :
      k.tasks.get id = some (Task.store t) -> t.filled k.cache ok data = some result ->
      Publication fileExt k
        { k with cache := result.1, tasks := k.tasks.set id (Task.store result.2) }
  | resumeStore (id : TaskId) (t : Store) (answer : Answer)
      (result : FilesystemCache × Progress Store) :
      k.tasks.get id = some (Task.store t) ->
      t.resume fileExt k.cache answer = some result ->
      Publication fileExt k (k.finishStore id t result)
  | startTree (id : TaskId) (place : PlaceConfig) (moves : List (EntryKey × EntryKey)) :
      k.tasks.get id = none ->
      Publication fileExt k (k.startTree id place moves)
  | unfilled (id : TaskId) (t : Tree) (data : Bytes) (result : FilesystemCache × Tree) :
      k.tasks.get id = some (Task.tree t) -> t.unfilled k.cache data = some result ->
      Publication fileExt k
        { k with cache := result.1, tasks := k.tasks.set id (Task.tree result.2) }
  | resumeTree (id : TaskId) (t : Tree) (result : FilesystemCache × Progress Tree) :
      k.tasks.get id = some (Task.tree t) ->
      t.resume k.main.files k.cache = some result ->
      Publication fileExt k (k.finishTree id result)

open VfsKernel in
/-- One atomic step of the main thread, of a worker or of the environment. -/
inductive Step (fileExt : Key -> Ext) : VfsKernel -> VfsKernel -> Prop where
  | publication : Publication fileExt k k' -> Step fileExt k k'
  | link : Step fileExt k k.newLink
  | attach (id : LinkId) (link : Link) (snapshot : Snapshot) :
      k.links.get id = some link -> link.worker = Worker.handed snapshot ->
      Step fileExt k
        (k.setLink id { link with worker := Worker.attached (Thread.fromSnapshot snapshot) })
  | deliverUpdate (id : LinkId) (link : Link) (t : Thread) (update : Update)
      (rest : List Update) :
      k.links.get id = some link -> link.worker = Worker.attached t ->
      link.down = update :: rest ->
      Step fileExt k (k.deliverUpdate id link t update rest)
  | deliverMessage (id : LinkId) (link : Link) (message : UpMessage)
      (rest : List UpMessage) :
      k.links.get id = some link -> link.up = message :: rest ->
      Step fileExt k (k.deliverMessage id link message rest)
  | acquireMain (consumer : ConsumerId) (slot : Slot) :
      k.main.pins.held.get consumer = none ->
      Step fileExt k { k with main := k.main.acquire consumer slot }
  | releaseMain (consumer : ConsumerId) : Step fileExt k (k.releaseMain consumer)
  | acquireWorker (id : LinkId) (link : Link) (t : Thread) (consumer : ConsumerId)
      (slot : Slot) :
      k.links.get id = some link -> link.worker = Worker.attached t ->
      t.pins.held.get consumer = none ->
      Step fileExt k
        (k.setLink id { link with worker := Worker.attached (t.acquire consumer slot) })
  | releaseWorker (id : LinkId) (link : Link) (t : Thread) (consumer : ConsumerId) :
      k.links.get id = some link -> link.worker = Worker.attached t ->
      Step fileExt k (k.releaseWorker id link t consumer)
  | exit (id : LinkId) (link : Link) :
      k.links.get id = some link ->
      Step fileExt k (k.setLink id { link with worker := Worker.exited })
  | close (id : LinkId) (link : Link) :
      k.links.get id = some link -> link.worker = Worker.exited ->
      Step fileExt k (k.closeLink id)

/-- A step, or a message handled once more: one the main thread handled before
on a live link, or any message of a link that is closed. -/
inductive NoisyStep (fileExt : Key -> Ext) : VfsKernel -> VfsKernel -> Prop where
  | step : Step fileExt k k' -> NoisyStep fileExt k k'
  | repeated (id : LinkId) (link : Link) (message : UpMessage) :
      k.links.get id = some link -> message ∈ link.processed ->
      NoisyStep fileExt k (k.handle id message)
  | stale (id : LinkId) (message : UpMessage) :
      k.links.get id = none -> NoisyStep fileExt k (k.handle id message)

inductive Reachable (fileExt : Key -> Ext) : VfsKernel -> Prop where
  | initial (limit segmentSize : Nat) (threshold : ℚ) :
      Reachable fileExt (VfsKernel.initial limit segmentSize threshold)
  | step : Reachable fileExt k -> Step fileExt k k' -> Reachable fileExt k'

inductive NoisyReachable (fileExt : Key -> Ext) : VfsKernel -> Prop where
  | initial (limit segmentSize : Nat) (threshold : ℚ) :
      NoisyReachable fileExt (VfsKernel.initial limit segmentSize threshold)
  | step : NoisyReachable fileExt k -> NoisyStep fileExt k k' -> NoisyReachable fileExt k'

inductive Run (fileExt : Key -> Ext) : VfsKernel -> VfsKernel -> Prop where
  | refl : Run fileExt k k
  | step : Run fileExt k k' -> Step fileExt k' k'' -> Run fileExt k k''

inductive NoisyRun (fileExt : Key -> Ext) : VfsKernel -> VfsKernel -> Prop where
  | refl : NoisyRun fileExt k k
  | step : NoisyRun fileExt k k' -> NoisyStep fileExt k' k'' -> NoisyRun fileExt k k''

theorem Run.one {fileExt : Key -> Ext} {k k' : VfsKernel} (h : Step fileExt k k') :
    Run fileExt k k' := Run.refl.step h

theorem Run.trans {fileExt : Key -> Ext} {k k' k'' : VfsKernel} (h : Run fileExt k k')
    (h' : Run fileExt k' k'') : Run fileExt k k'' := by
  induction h' with
  | refl => exact h
  | step _ hstep ih => exact ih.step hstep

theorem Run.noisy {fileExt : Key -> Ext} {k k' : VfsKernel} (h : Run fileExt k k') :
    NoisyRun fileExt k k' := by
  induction h with
  | refl => exact NoisyRun.refl
  | step _ hstep ih => exact ih.step (NoisyStep.step hstep)

theorem Run.reachable {fileExt : Key -> Ext} {k k' : VfsKernel} (h : Run fileExt k k')
    (hk : Reachable fileExt k) : Reachable fileExt k' := by
  induction h with
  | refl => exact hk
  | step _ hstep ih => exact ih.step hstep

theorem NoisyRun.reachable {fileExt : Key -> Ext} {k k' : VfsKernel}
    (h : NoisyRun fileExt k k') (hk : NoisyReachable fileExt k) :
    NoisyReachable fileExt k' := by
  induction h with
  | refl => exact hk
  | step _ hstep ih => exact ih.step hstep

theorem Reachable.noisy {fileExt : Key -> Ext} {k : VfsKernel} (h : Reachable fileExt k) :
    NoisyReachable fileExt k := by
  induction h with
  | initial limit segmentSize threshold =>
      exact NoisyReachable.initial limit segmentSize threshold
  | step _ hstep ih => exact NoisyReachable.step ih (NoisyStep.step hstep)

end SharedMemoryFs
