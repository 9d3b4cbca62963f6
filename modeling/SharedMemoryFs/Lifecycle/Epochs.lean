import SharedMemoryFs.Lifecycle.Kernel

/-!
# Watcher epochs

What the kernel does with the events of one epoch, each in a job of its own, and
with a recheck.  A path under a place root is given by its place and key.
-/

namespace SharedMemoryFs.Lifecycle

open Foundation

/-- What an epoch says of one path. -/
inductive Change where
  | change
  | scan
  | delete
deriving DecidableEq, Repr

namespace Kernel

def markSeen (k : Kernel) (ep : EpochRef) (name : PlaceName) (key : Key) : Kernel :=
  { k with
    epochs := k.epochs.set ep { k.epoch ep with seen := (name, key) :: (k.epoch ep).seen } }

/-- {lit}`#scheduleRecheck`: one timer for a path. -/
def scheduleRecheck (k : Kernel) (hosted : HostedPlace) (key : Key) : Kernel :=
  if k.rechecks.has (hosted.name, key) then k
  else { k with rechecks := k.rechecks.set (hosted.name, key) hosted }

/-- {lit}`#cancelRecheck`. -/
def cancelRecheck (k : Kernel) (hosted : HostedPlace) (key : Key) : Kernel :=
  { k with rechecks := k.rechecks.delete (hosted.name, key) }

/-- {lit}`place.store.remove` of a map place. -/
def removeMap (k : Kernel) (hosted : HostedPlace) (key : Key) : Kernel :=
  let own := k.files hosted.name
  if own.hasSource key then
    { k with files := setFiles k.files hosted.name (MapStore.remove hosted.place own key) }
  else k

/-- {lit}`source.delete`. -/
def untrack (k : Kernel) (hosted : HostedPlace) (key : Key) : Kernel :=
  { k with
    sources := Function.update k.sources hosted.name
      ((k.sources hosted.name).map (fun source : PlaceFiles FileInput =>
        source.delete (EntryKey.ofSource key))) }

/-- One key {lit}`gone` in {lit}`#unpublish`. -/
def dropSource (ep : EpochRef) (hosted : HostedPlace) (k : Kernel) (key : Key) : Kernel :=
  let cancelled := (k.untrack hosted key).cancelRecheck hosted key
  if hosted.provider = Provider.map then cancelled.removeMap hosted key
  else cancelled.unstage ep hosted key

/-- The keys a deletion takes: the path itself and everything below it. -/
def gone (source : PlaceFiles FileInput) (key : Key) : List Key :=
  (if source.hasSource key then [key] else []) ++ source.keysUnder key

end Kernel

/-- {lit}`#unpublish`. -/
def unpublish (ep : EpochRef) (hosted : HostedPlace) (key : Key) : Prog Unit := do
  let k ← Async.read
  match k.sources hosted.name with
  | none => Async.throw Fault.missing
  | some source =>
      let dropped := (Kernel.gone source key).foldl (Kernel.dropSource ep hosted) k
      Async.set (dropped.cancelRecheck hosted key) (Async.done ())

/-- The catch of {lit}`#publish`. -/
def publishFailed (hosted : HostedPlace) (key : Key) (retry : Bool) : Prog Unit := do
  let k ← Async.read
  if k.state = KernelState.closed then Async.done ()
  else if retry then Async.set (k.scheduleRecheck hosted key) (Async.done ())
  else Async.done ()

/-- {lit}`#publish`: a failure keeps the previous version and asks for a recheck. -/
def publish (ep : EpochRef) (hosted : HostedPlace) (key : Key) (file : FileInput)
    (retry : Bool) : Prog Unit := do
  let k ← Async.read
  if (hosted.name, key) ∈ (k.epoch ep).seen then Async.done ()
  else
    Async.set (k.markSeen ep hosted.name key)
      (Async.recover (fun _ => publishFailed hosted key retry)
        (call (publishEntry ep hosted key file)))

/-- The loop of {lit}`#rescan` over what it scanned. -/
def publishNew (ep : EpochRef) (hosted : HostedPlace) : List (Key × FileInput) -> Prog Unit
  | [] => Async.done ()
  | (key, file) :: rest => do
      let k ← Async.read
      if (k.sources hosted.name).any (fun source => source.hasSource key) then
        publishNew ep hosted rest
      else do
        call (publish ep hosted key file true)
        publishNew ep hosted rest

/-- {lit}`#rescan`. -/
def rescan (ep : EpochRef) (hosted : HostedPlace) (key : Key) : Prog Unit := do
  let files ← Async.ask (Ask.scan hosted key)
  publishNew ep hosted files

/-- What a publication of a file on disk takes. -/
def diskFile (hosted : HostedPlace) (key : Key) (stat : Stat) : FileInput :=
  { data := none, path := some (hosted.place.pathOf key), stat := stat }

/-- {lit}`#refresh`. -/
def refresh (ep : EpochRef) (hosted : HostedPlace) (key : Key) (retry : Bool) :
    Prog Unit :=
  if hosted.scanExt.all (fun ext => ext.contains (hosted.place.fileExt key)) then do
    match ← Async.ask (Ask.stat hosted key) with
    | none => unpublish ep hosted key
    | some stats =>
        if stats.kind = DiskKind.file then
          call (publish ep hosted key (diskFile hosted key stats.stat) retry)
        else Async.done ()
  else Async.done ()

/-- {lit}`#remove`: a path that exists again is not removed. -/
def remove (ep : EpochRef) (hosted : HostedPlace) (key : Key) : Prog Unit := do
  match ← Async.ask (Ask.stat hosted key) with
  | none => unpublish ep hosted key
  | some stats =>
      if stats.kind = DiskKind.directory then call (rescan ep hosted key)
      else call (refresh ep hosted key true)

/-- The job of one event in {lit}`#handleEpoch`. -/
def job (ep : EpochRef) (hosted : HostedPlace) (key : Key) : Change -> Prog Unit
  | Change.delete => remove ep hosted key
  | Change.scan => rescan ep hosted key
  | Change.change => refresh ep hosted key true

/-- The task of one recheck. -/
def recheck (hosted : HostedPlace) (key : Key) : Prog Unit := do
  let ep ← newEpoch
  call (refresh ep hosted key false)
  flush ep

end SharedMemoryFs.Lifecycle
