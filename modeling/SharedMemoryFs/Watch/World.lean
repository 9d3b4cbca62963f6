import SharedMemoryFs.Lifecycle.EventLoop
import SharedMemoryFs.Watch.Disk

/-!
# A kernel over a disk that changes

The event loop with the disk its answers come from and the watcher whose events
start epochs.  The disk changes between the initial scan, the epochs and the
rechecks, never during one; a raw event may wait as long as it likes between its
stat, the queue of the watcher and the epoch that takes it.
-/

namespace SharedMemoryFs.Lifecycle

open Foundation

/-- What the watcher makes of the stat of a raw event. -/
def Disk.classify (d : Disk) (path : PosixPath.Text) : Option Change :=
  match d.stat path with
  | Except.ok stats =>
      some (if stats.kind = DiskKind.directory then Change.scan else Change.change)
  | Except.error Errno.enoent => some Change.delete
  | Except.error _ => none

/-- The answers of the disk.  A read may fail for reasons of its own, and an input
with a path takes the bytes that lie there. -/
def Disk.Answers (d : Disk) (strict : Bool) (question : Ask) : question.reply -> Prop :=
  match question with
  | Ask.stat hosted key => fun answer => answer = (d.stat (hosted.pathOf key)).toOption
  | Ask.scan hosted start => fun answer => answer = d.scan strict hosted start
  | Ask.read _ _ file => fun answer => forall path data, file.path = some path ->
      answer = some data -> d.read path.toList = some data
  | Ask.allocate _ _ input => fun placed => forall path data, input.data = none ->
      input.path = some path -> placed.read = some data -> d.read path.toList = some data
  | Ask.turn => fun _ => True
  | Ask.entryBytes _ _ _ => fun _ => True
  | Ask.compress _ _ => fun _ => True

/-- The disk has an answer to every question. -/
def Disk.answer (d : Disk) (strict : Bool) (question : Ask) : question.reply :=
  match question with
  | Ask.stat hosted key => (d.stat (hosted.pathOf key)).toOption
  | Ask.scan hosted start => d.scan strict hosted start
  | Ask.read _ _ file => file.path.bind (fun path => d.read path.toList)
  | Ask.allocate _ _ input =>
      { fits := true, read := input.path.bind (fun path => d.read path.toList) }
  | Ask.turn => ()
  | Ask.entryBytes _ _ data => some data
  | Ask.compress _ _ => fun _ => none

theorem Disk.answer_answers (d : Disk) (strict : Bool) (question : Ask) :
    d.Answers strict question (d.answer strict question) := by
  cases question with
  | stat hosted key => rfl
  | scan hosted start => rfl
  | read hosted key file =>
      intro path data hpath hread
      have hanswer : file.path.bind (fun path => d.read path.toList) = some data := hread
      rw [hpath] at hanswer
      exact hanswer
  | allocate hosted key input =>
      intro path data _ hpath hread
      have hanswer : input.path.bind (fun path => d.read path.toList) = some data := hread
      rw [hpath] at hanswer
      exact hanswer
  | turn => exact trivial
  | entryBytes hosted key data => exact trivial
  | compress hosted key => exact trivial

/-- {lit}`raised` are the raw events whose stat is answered, {lit}`queue` those the
watcher collects.  {lit}`reads` records every source taken through the pipeline, with
the disk it was read from. -/
structure World where
  runtime : Runtime
  disk : Disk
  raised : List (HostedPlace × Key × Change)
  queue : OrderedMap (PlaceName × Key) (HostedPlace × Change)
  reads : List (Disk × PlaceName × Key)

namespace World

def new (d : Disk) : World :=
  { runtime := Runtime.new, disk := d, raised := [], queue := OrderedMap.empty, reads := [] }

/-- The event loop went on. -/
def advance (w : World) (r : Runtime) : World :=
  let stored := r.kernel.stored
  let more := stored.take (stored.length - w.runtime.kernel.stored.length)
  { w with runtime := r, reads := more.map (fun source => (w.disk, source)) ++ w.reads }

/-- {lit}`flush` of the watcher. -/
def events (w : World) : List (HostedPlace × Key × Change) :=
  w.queue.entries.map (fun entry => (entry.2.1, entry.1.2, entry.2.2))

def startEpoch (w : World) : World :=
  { w with
    queue := OrderedMap.empty
    runtime := { w.runtime with serial := w.runtime.serial ++ [Serial.epoch w.events] } }

end World

/-- Nothing of the initial scan, of an epoch or of a recheck is going on. -/
structure Runtime.Quiet (r : Runtime) : Prop where
  init : r.init = Init.idle ∨ r.init = Init.resolved ∨ r.init = Init.rejected
  tasks : r.tasks.size = 0
  queue : r.queue = []
  running : r.running = none

/-- One step, with the task of the watch queue whose turn it is, if it is one's. -/
inductive World.Step (config : Config) (strict : Bool) : World -> Option Serial -> World -> Prop
    where
  | change (d : Disk) : w.runtime.Quiet -> World.Step config strict w none { w with disk := d }
  | raise (hosted : HostedPlace) (names : List PosixPath.Text) (event : Change) :
      w.runtime.kernel.watcher = true -> hosted ∈ config.places ->
      (w.runtime.kernel.sources hosted.name).isSome = true ->
      (forall name, name ∈ names -> PosixPath.Plain name) ->
      w.disk.classify (hosted.pathOf (PosixPath.text names)) = some event ->
      World.Step config strict w none
        { w with raised := w.raised ++ [(hosted, PosixPath.text names, event)] }
  | enqueue (before after : List (HostedPlace × Key × Change)) (hosted : HostedPlace)
      (key : Key) (event : Change) :
      w.raised = before ++ (hosted, key, event) :: after ->
      World.Step config strict w none
        { w with
          raised := before ++ after
          queue := w.queue.set (hosted.name, key) (hosted, event) }
  | flush : w.runtime.kernel.watcher = true -> w.queue.size ≠ 0 ->
      World.Step config strict w none w.startEpoch
  | initKernel : w.runtime.kernel.state = KernelState.new ->
      World.Step config strict w none (w.advance (w.runtime.initKernel config))
  | scanned (ep : EpochRef) (hosted : HostedPlace) (rest : List HostedPlace) :
      w.runtime.init = Init.scanning ep hosted rest ->
      World.Step config strict w none
        (w.advance (w.runtime.scanned ep hosted rest (w.disk.scan strict hosted [])))
  | originated (ep : EpochRef) (hosted : HostedPlace) (rest : List HostedPlace)
      (files : Option (List (Key × FileInput))) :
      w.runtime.init = Init.originated ep hosted rest files ->
      World.Step config strict w none
        (w.advance (w.runtime.originated config ep hosted rest files))
  | published (ep : EpochRef) (rest : List HostedPlace) :
      w.runtime.init = Init.publishing ep rest -> w.runtime.failed = false ->
      ¬ w.runtime.Pending Runtime.isEntry ->
      World.Step config strict w none (w.advance (w.runtime.nextPlace config ep rest))
  | failed (ep : EpochRef) (rest : List HostedPlace) :
      w.runtime.init = Init.publishing ep rest -> w.runtime.failed = true ->
      World.Step config strict w none (w.advance w.runtime.failInit)
  | resume (id : Nat) (task : Suspended) (answer : task.question.reply) :
      w.runtime.tasks.get id = some task ->
      w.disk.Answers strict task.question answer ->
      World.Step config strict w none (w.advance (w.runtime.resume id task answer))
  | fire (hosted : HostedPlace) (key : Key) :
      w.runtime.kernel.rechecks.get (hosted.name, key) = some hosted ->
      World.Step config strict w none (w.advance (w.runtime.fire hosted key))
  | serial (task : Serial) (rest : List Serial) :
      w.runtime.running = none -> w.runtime.serial = task :: rest ->
      World.Step config strict w (some task) (w.advance (w.runtime.serialTurn task rest))
  | endEpoch (ep : EpochRef) :
      w.runtime.running = some (Running.epoch ep) ->
      ¬ w.runtime.Pending (Runtime.isJob ep) ->
      World.Step config strict w none (w.advance (w.runtime.endEpoch ep))

end SharedMemoryFs.Lifecycle
