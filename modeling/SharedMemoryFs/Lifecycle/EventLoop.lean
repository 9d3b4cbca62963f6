import Mathlib.Data.List.Sort
import SharedMemoryFs.Lifecycle.Epochs

/-!
# The event loop

Everything the main thread has in flight: {lit}`initialize` at one of its awaits,
the publications it started, the epoch or recheck whose turn it is, and virtual
mutations.  One step resumes one of them, or is a watcher epoch, a timer, a new
mutation or {lit}`close`.
-/

namespace SharedMemoryFs.Lifecycle

open Foundation

/-- What the configuration and the embedded assets decide once. -/
structure Config where
  places : List HostedPlace
  distinct : places.Pairwise (fun a b => a.name ≠ b.name)
  concurrency : Nat
  watchRequired : Bool
  assets : PlaceName -> Option (List (Key × FileInput))

/-- Whose promise a suspended function settles. -/
inductive Role where
  | entry (ep : EpochRef)
  | job (ep : EpochRef)
  | recheck
  | mutation

structure Suspended where
  role : Role
  question : Ask
  next : question.reply -> Prog Unit

/-- How far {lit}`initialize` is: it awaits the scan of an origin, the end of
{lit}`#originOf` or the end of {lit}`#publishAll`, with the places still to come. -/
inductive Init where
  | idle
  | scanning (ep : EpochRef) (hosted : HostedPlace) (rest : List HostedPlace)
  | originated (ep : EpochRef) (hosted : HostedPlace) (rest : List HostedPlace)
      (files : Option (List (Key × FileInput)))
  | publishing (ep : EpochRef) (rest : List HostedPlace)
  | resolved
  | rejected

/-- A task of the watch queue. -/
inductive Serial where
  | epoch (events : List (HostedPlace × Key × Change))
  | recheck (hosted : HostedPlace) (key : Key)

inductive Running where
  | epoch (ep : EpochRef)
  | recheck

inductive VirtualOp where
  | publish (hosted : HostedPlace) (key : Key) (raw : Bytes) (now : Nat)
  | unpublish (hosted : HostedPlace) (keys : List Key)
  | rename (hosted : HostedPlace) (source target : Key)
  | renameTree (hosted : HostedPlace) (moves : List (EntryKey × EntryKey))

def VirtualOp.prog : VirtualOp -> Prog Unit
  | VirtualOp.publish hosted key raw now => publishVirtual hosted key raw now
  | VirtualOp.unpublish hosted keys => unpublishVirtual hosted keys
  | VirtualOp.rename hosted source target => renameVirtual hosted source target
  | VirtualOp.renameTree hosted moves => renameVirtualTree hosted moves

/-- {lit}`queue` and {lit}`failed` are those of the last {lit}`#publishAll`, each file
with the place it is published in. -/
structure Runtime where
  kernel : Kernel
  init : Init
  queue : List (HostedPlace × Key × FileInput)
  failed : Bool
  tasks : OrderedMap Nat Suspended
  nextTask : Nat
  serial : List Serial
  running : Option Running

namespace Runtime

def new : Runtime :=
  { kernel :=
      { state := KernelState.new
        cache := none
        files := fun _ => PlaceFiles.empty
        sources := fun _ => none
        watcher := false
        rechecks := OrderedMap.empty
        epochs := OrderedMap.empty
        nextEpoch := 0
        posted := []
        stored := [] }
    init := Init.idle
    queue := []
    failed := false
    tasks := OrderedMap.empty
    nextTask := 0
    serial := []
    running := none }

def setKernel (r : Runtime) (k : Kernel) : Runtime := { r with kernel := k }

def close (r : Runtime) : Runtime := r.setKernel r.kernel.close

/-!
# Tasks
-/

def suspend (r : Runtime) (role : Role) (question : Ask)
    (next : question.reply -> Prog Unit) : Runtime :=
  { r with
    tasks := r.tasks.set r.nextTask ⟨role, question, next⟩
    nextTask := r.nextTask + 1 }

/-- The loop of one worker of {lit}`#publishAll`, up to its next await. -/
def feed (ep : EpochRef) : List (HostedPlace × Key × FileInput) -> Runtime -> Runtime
  | [], r => { r with queue := [] }
  | (hosted, key, file) :: rest, r =>
      match Async.run (publishEntry ep hosted key file) r.kernel with
      | (k, Paused.waiting question next) =>
          { r.setKernel k with queue := rest }.suspend (Role.entry ep) question next
      | (k, Paused.returned _) => feed ep rest (r.setKernel k)
      | (k, Paused.threw _) => { r.setKernel k with queue := rest, failed := true }

/-- The end of a task.  A job that failed is logged, and a mutation answers its
caller. -/
def ended (r : Runtime) (ok : Bool) : Role -> Runtime
  | Role.entry ep =>
      if ok then if r.failed then r else feed ep r.queue r
      else { r with failed := true }
  | Role.job _ => r
  | Role.recheck => { r with running := none }
  | Role.mutation => r

/-- Run a task to its next await or its end. -/
def runTask (r : Runtime) (role : Role) (x : Prog Unit) : Runtime :=
  match Async.run x r.kernel with
  | (k, Paused.waiting question next) => (r.setKernel k).suspend role question next
  | (k, Paused.returned _) => (r.setKernel k).ended true role
  | (k, Paused.threw _) => (r.setKernel k).ended false role

def resume (r : Runtime) (id : Nat) (task : Suspended) (answer : task.question.reply) :
    Runtime :=
  { r with tasks := r.tasks.delete id }.runTask task.role (task.next answer)

/-- A task with this property is in flight. -/
def Pending (r : Runtime) (p : Role -> Prop) : Prop :=
  exists id task, r.tasks.get id = some task ∧ p task.role

def isEntry : Role -> Prop
  | Role.entry _ => True
  | _ => False

/-!
# Initialization
-/

/-- {lit}`watch`, on a kernel that is ready. -/
def watch (config : Config) (r : Runtime) : Runtime :=
  if config.places.any (fun hosted => (r.kernel.sources hosted.name).isSome) then
    r.setKernel { r.kernel with watcher := true }
  else r

/-- The catch of {lit}`initialize`. -/
def failInit (r : Runtime) : Runtime := { r.close with init := Init.rejected }

/-- {lit}`initialize` after its last place. -/
def finishInit (config : Config) (ep : EpochRef) (r : Runtime) : Runtime :=
  match Async.run (flush ep) r.kernel with
  | (k, Paused.returned _) =>
      let ready := { r.setKernel { k with state := KernelState.ready } with
        init := Init.resolved }
      if config.watchRequired then ready.watch config else ready
  | (k, _) => (r.setKernel k).failInit

/-- {lit}`#originOf` up to its first await: only a disk origin has one. -/
def startOrigin (config : Config) (ep : EpochRef) (hosted : HostedPlace)
    (rest : List HostedPlace) : Init :=
  if hosted.provider = Provider.sea then
    Init.originated ep hosted rest (config.assets hosted.name)
  else if !hosted.provider.indexed || hosted.virtual then
    Init.originated ep hosted rest none
  else Init.scanning ep hosted rest

/-- The loop of {lit}`initialize` over its places. -/
def nextPlace (config : Config) (ep : EpochRef) (r : Runtime) : List HostedPlace -> Runtime
  | [] => r.finishInit config ep
  | hosted :: rest => { r with init := startOrigin config ep hosted rest }

/-- {lit}`initialize` up to its first await. -/
def initKernel (config : Config) (r : Runtime) : Runtime :=
  let k := { r.kernel with
    state := KernelState.initializing
    cache := some (fun _ => PlaceFiles.empty) }
  (r.setKernel k.openEpoch).nextPlace config k.nextEpoch config.places

/-- The end of a scan: the place is watched from here on. -/
def scanned (r : Runtime) (ep : EpochRef) (hosted : HostedPlace) (rest : List HostedPlace)
    (files : List (Key × FileInput)) : Runtime :=
  { r.setKernel { r.kernel with
      sources := Function.update r.kernel.sources hosted.name (some PlaceFiles.empty) } with
    init := Init.originated ep hosted rest (some files) }

/-- {lit}`n` workers start on the queue. -/
def startWorkers (ep : EpochRef) : Nat -> Runtime -> Runtime
  | 0, r => r
  | n + 1, r => startWorkers ep n (if r.failed then r else feed ep r.queue r)

/-- {lit}`#publishAll`, largest file first, up to its await. -/
def publishAll (config : Config) (ep : EpochRef) (hosted : HostedPlace)
    (files : List (Key × FileInput)) (r : Runtime) : Runtime :=
  let queue := files.insertionSort (fun a b => b.2.stat.size ≤ a.2.stat.size)
  startWorkers ep (min config.concurrency queue.length)
    { r with queue := queue.map (fun file => (hosted, file)), failed := false }

/-- {lit}`initialize` once {lit}`#originOf` settled. -/
def originated (config : Config) (ep : EpochRef) (hosted : HostedPlace)
    (rest : List HostedPlace) (files : Option (List (Key × FileInput))) (r : Runtime) :
    Runtime :=
  match files with
  | none => r.nextPlace config ep rest
  | some files => { r.publishAll config ep hosted files with init := Init.publishing ep rest }

/-!
# The watch queue
-/

def isJob (ep : EpochRef) : Role -> Prop
  | Role.job ep' => ep' = ep
  | _ => False

/-- One event in the loop of {lit}`#handleEpoch`. -/
def startJob (ep : EpochRef) (r : Runtime) (event : HostedPlace × Key × Change) : Runtime :=
  if (r.kernel.sources event.1.name).isSome then
    r.runTask (Role.job ep) (job ep event.1 event.2.1 event.2.2)
  else r

/-- A task of the watch queue in its turn, on a kernel that is ready. -/
def startSerial (r : Runtime) : Serial -> Runtime
  | Serial.epoch events =>
      let ep := r.kernel.nextEpoch
      let opened := r.setKernel r.kernel.openEpoch
      events.foldl (startJob ep) { opened with running := some (Running.epoch ep) }
  | Serial.recheck hosted key =>
      { r with running := some Running.recheck }.runTask Role.recheck (recheck hosted key)

/-- {lit}`#serial`: a task that finds the kernel not ready does nothing. -/
def serialTurn (r : Runtime) (task : Serial) (rest : List Serial) : Runtime :=
  let turned := { r with serial := rest }
  if r.kernel.state = KernelState.ready then turned.startSerial task else turned

/-- {lit}`#handleEpoch` once its jobs settled. -/
def endEpoch (r : Runtime) (ep : EpochRef) : Runtime :=
  { r.setKernel (Async.run (flush ep) r.kernel).1 with running := none }

/-- The callback of a recheck timer. -/
def fire (r : Runtime) (hosted : HostedPlace) (key : Key) : Runtime :=
  { r.setKernel (r.kernel.cancelRecheck hosted key) with
    serial := r.serial ++ [Serial.recheck hosted key] }

/-- A mutation in its turn: {lit}`enqueueMutation` checks the kernel then. -/
def mutate (r : Runtime) (op : VirtualOp) : Runtime :=
  if r.kernel.state = KernelState.ready then r.runTask Role.mutation op.prog else r

end Runtime

/-!
# Steps
-/

/-- Which step a run takes, as far as its conditions ask. -/
inductive Label where
  | close
  /-- {lit}`initialize` is resumed after {lit}`#originOf` or {lit}`#publishAll`. -/
  | place
  /-- Another step of {lit}`initialize` or of one of its publications. -/
  | own
  | other
deriving DecidableEq

def Role.label : Role -> Label
  | Role.entry _ => Label.own
  | _ => Label.other

inductive Step (config : Config) : Runtime -> Label -> Runtime -> Prop where
  | initKernel :
      r.kernel.state = KernelState.new ->
      Step config r Label.other (r.initKernel config)
  | scanned (ep : EpochRef) (hosted : HostedPlace) (rest : List HostedPlace)
      (files : List (Key × FileInput)) :
      r.init = Init.scanning ep hosted rest ->
      Step config r Label.own (r.scanned ep hosted rest files)
  | originated (ep : EpochRef) (hosted : HostedPlace) (rest : List HostedPlace)
      (files : Option (List (Key × FileInput))) :
      r.init = Init.originated ep hosted rest files ->
      Step config r Label.place (r.originated config ep hosted rest files)
  | published (ep : EpochRef) (rest : List HostedPlace) :
      r.init = Init.publishing ep rest -> r.failed = false ->
      ¬ r.Pending Runtime.isEntry ->
      Step config r Label.place (r.nextPlace config ep rest)
  | failed (ep : EpochRef) (rest : List HostedPlace) :
      r.init = Init.publishing ep rest -> r.failed = true ->
      Step config r Label.own r.failInit
  | resume (id : Nat) (task : Suspended) (answer : task.question.reply) :
      r.tasks.get id = some task ->
      Step config r task.role.label (r.resume id task answer)
  | mutate (op : VirtualOp) : Step config r Label.other (r.mutate op)
  | epoch (events : List (HostedPlace × Key × Change)) :
      r.kernel.watcher = true ->
      Step config r Label.other { r with serial := r.serial ++ [Serial.epoch events] }
  | fire (hosted : HostedPlace) (key : Key) :
      r.kernel.rechecks.get (hosted.name, key) = some hosted ->
      Step config r Label.other (r.fire hosted key)
  | serial (task : Serial) (rest : List Serial) :
      r.running = none -> r.serial = task :: rest ->
      Step config r Label.other (r.serialTurn task rest)
  | endEpoch (ep : EpochRef) :
      r.running = some (Running.epoch ep) -> ¬ r.Pending (Runtime.isJob ep) ->
      Step config r Label.other (r.endEpoch ep)
  | close : Step config r Label.close r.close

inductive Reachable (config : Config) : Runtime -> Prop where
  | new : Reachable config Runtime.new
  | step : Reachable config r -> Step config r label r' -> Reachable config r'

/-- The steps of a run that starts in {lit}`r`, each with the state it leads to. -/
inductive Run (config : Config) : Runtime -> List (Label × Runtime) -> Prop where
  | nil : Run config r []
  | cons : Step config r label r' -> Run config r' steps ->
      Run config r ((label, r') :: steps)

end SharedMemoryFs.Lifecycle
